import Njs.Lib.Resumable
import Njs.Lib.Text

/-!
# The decoder of chunked bodies

`ngx_js_http_parse_chunked` (`nginx/ngx_js_http.c`) decodes a chunked response body. It reads one
buffer at a time and keeps its state in `ngx_js_http_chunk_parse_t`. The bytes of a chunk are copied
by `ngx_js_http_chunk_buffer`, all that are in the buffer at once.

The sizes of the C code are 64-bit numbers. The definitions are made for sizes of any type with the
operations that the code makes on them, so that they can be compared with those on natural numbers.
-/

namespace Njs.HttpClient

open Resumable (Verdict)
open Text (chr)

/-! ### The decoder -/

/-- The type of `chunk_size`, with what the decoder computes there. -/
class ChunkSize (σ : Type) where
  zero : σ
  isZero : σ → Bool
  digit : UInt8 → σ
  /-- `(chunk_size << 4) + c`. -/
  shift : σ → UInt8 → σ
  /-- `ngx_size_is_sufficient`. -/
  sufficient : σ → Bool
  /-- `chunk_size < size`. -/
  less : σ → ℕ → Bool
  /-- `chunk_size - size`. -/
  sub : σ → ℕ → σ
  length : σ → ℕ

/-- `uint64_t`. -/
instance : ChunkSize UInt64 where
  zero := 0
  isZero n := n = 0
  digit c := c.toUInt64
  shift n c := (n <<< 4) + c.toUInt64
  sufficient n := n < (1 : UInt64) <<< 60
  less n size := n.toNat < size
  sub n size := n - UInt64.ofNat size
  length n := n.toNat

/-- Natural numbers, with the bound that the decoder checks. -/
instance : ChunkSize ℕ where
  zero := 0
  isZero n := n = 0
  digit c := c.toNat
  shift n c := 16 * n + c.toNat
  sufficient n := n < 2 ^ 60
  less n size := n < size
  sub n size := n - size
  length n := n

/-- The states of the decoder. -/
inductive ChunkState
  | start
  | chunkSize
  | chunkSizeLinefeed
  | chunkEndNewline
  | chunkEndLinefeed
  | chunk
  deriving DecidableEq

/-- `ngx_js_http_chunk_parse_t`; the position is that of the input that is left. -/
structure ChunkParse (σ : Type) where
  state : ChunkState
  chunkSize : σ
  last : Bool

variable {σ : Type} [ChunkSize σ]

/-- The decoder as it is before the first buffer. -/
def ChunkParse.init : ChunkParse σ := ⟨.start, ChunkSize.zero, false⟩

/-- `NGX_JS_HTTP_CHUNK_MIDDLE`, `NGX_JS_HTTP_CHUNK_ON_BORDER` and `NGX_JS_HTTP_CHUNK_END`. -/
inductive ChunkRc
  | middle
  | onBorder
  | ended
  deriving DecidableEq

/-- `ngx_js_http_chunk_buffer`, with the chain and the input that is left. -/
def ngxJsHttpChunkBuffer (hcp : ChunkParse σ) (b chain : Bytes) :
    ChunkRc × ChunkParse σ × Bytes × Bytes :=
  let size := b.length
  if ChunkSize.less hcp.chunkSize size then
    let n := ChunkSize.length hcp.chunkSize
    (.ended, hcp, chain ++ b.take n, b.drop n)
  else
    let hcp := { hcp with chunkSize := ChunkSize.sub hcp.chunkSize size }
    (if ChunkSize.isZero hcp.chunkSize then .onBorder else .middle, hcp, chain ++ b, [])

/-- `c = ch - '0'`, when it is a digit. -/
def decimalDigit (ch : UInt8) : Option UInt8 :=
  let c := ch - chr '0'
  if c ≤ 9 then some c else none

/-- `c = (ch | 0x20) - 'a'`, when it is a digit of a hexadecimal number. -/
def letterDigit (ch : UInt8) : Option UInt8 :=
  let c := (ch ||| 0x20) - chr 'a'
  if c ≤ 5 then some (0x0a + c) else none

/-- The `switch` of `ngx_js_http_parse_chunked`, for one byte. -/
def chunkSwitch (hcp : ChunkParse σ) (ch : UInt8) : Verdict (ChunkParse σ) Unit :=
  match hcp.state with
  | .start =>
    match decimalDigit ch with
    | some c => .more { hcp with state := .chunkSize, chunkSize := ChunkSize.digit c }
    | none =>
      match letterDigit ch with
      | some c => .more { hcp with state := .chunkSize, chunkSize := ChunkSize.digit c }
      | none => .fail
  | .chunkSize =>
    let next (c : UInt8) : Verdict (ChunkParse σ) Unit :=
      if ChunkSize.sufficient hcp.chunkSize then
        .more { hcp with chunkSize := ChunkSize.shift hcp.chunkSize c }
      else .fail
    match decimalDigit ch with
    | some c => next c
    | none =>
      match letterDigit ch with
      | some c => next c
      | none => if ch = chr '\r' then .more { hcp with state := .chunkSizeLinefeed } else .fail
  | .chunkSizeLinefeed =>
    if ch = chr '\n' then
      if ChunkSize.isZero hcp.chunkSize then
        .more { hcp with last := true, state := .chunkEndNewline }
      else .more { hcp with state := .chunk }
    else .fail
  | .chunkEndNewline =>
    if ch = chr '\r' then .more { hcp with state := .chunkEndLinefeed } else .fail
  | .chunkEndLinefeed =>
    if ch = chr '\n' then
      if hcp.last = false then .more { hcp with state := .start } else .done ()
    else .fail
  | .chunk => .more hcp

/-- The part of the loop of `ngx_js_http_parse_chunked` before the `switch`. Outside of a chunk
there is nothing to copy, and a byte is read. -/
def chunkCopy (hcp : ChunkParse σ) (chain b : Bytes) : ChunkRc × ChunkParse σ × Bytes × Bytes :=
  if hcp.state = .chunk then
    let (rc, hcp, chain, p) := ngxJsHttpChunkBuffer hcp b chain
    (rc, if rc = .middle then hcp else { hcp with state := .chunkEndNewline }, chain, p)
  else (.ended, hcp, chain, b)

theorem length_chunkBuffer_le (hcp : ChunkParse σ) (b chain : Bytes) :
    (ngxJsHttpChunkBuffer hcp b chain).2.2.2.length ≤ b.length := by
  rw [ngxJsHttpChunkBuffer]
  split <;> simp

theorem length_chunkCopy_le (hcp : ChunkParse σ) (chain b : Bytes) :
    (chunkCopy hcp chain b).2.2.2.length ≤ b.length := by
  rw [chunkCopy]
  by_cases hchunk : hcp.state = .chunk
  · rw [if_pos hchunk]
    exact length_chunkBuffer_le hcp b chain
  · rw [if_neg hchunk]

/-- `ngx_js_http_parse_chunked`: the verdict on a buffer, with the chain it has filled and the input
that is left. -/
def ngxJsHttpParseChunked (hcp : ChunkParse σ) (chain b : Bytes) :
    Verdict (ChunkParse σ × Bytes) Bytes × Bytes :=
  if b = [] then (.more (hcp, chain), [])
  else
    match _h : chunkCopy hcp chain b with
    | (.ended, hcp', chain, ch :: p) =>
      match chunkSwitch hcp' ch with
      | .more hcp => ngxJsHttpParseChunked hcp chain p
      | .done () => (.done chain, p)
      | .fail => (.fail, p)
    | (_, hcp, chain, p) => (.more (hcp, chain), p)
termination_by b.length
decreasing_by
  have hlen := congrArg (fun r : ChunkRc × ChunkParse σ × Bytes × Bytes => r.2.2.2.length) _h
  exact Nat.lt_of_succ_le (le_trans (le_of_eq hlen.symm) (length_chunkCopy_le _ _ b))

theorem parseChunked_nil (hcp : ChunkParse σ) (chain : Bytes) :
    ngxJsHttpParseChunked hcp chain [] = (.more (hcp, chain), []) := by
  rw [ngxJsHttpParseChunked, if_pos rfl]

theorem parseChunked_left {hcp hcp' : ChunkParse σ} {chain chain' b p : Bytes} {rc : ChunkRc}
    (hne : b ≠ []) (h : chunkCopy hcp chain b = (rc, hcp', chain', p))
    (hleft : rc ≠ .ended ∨ p = []) :
    ngxJsHttpParseChunked hcp chain b = (.more (hcp', chain'), p) := by
  rw [ngxJsHttpParseChunked, if_neg hne]
  split
  · next hcp₂ chain₂ ch₂ p₂ h₂ =>
    rw [h] at h₂
    obtain ⟨rfl, hrest⟩ := Prod.mk.inj h₂
    obtain rfl : p = ch₂ :: p₂ := congrArg (fun r => r.2.2) hrest
    simp at hleft
  · next rc₂ hcp₂ chain₂ p₂ _ h₂ =>
    rw [h] at h₂
    cases h₂
    rfl

theorem parseChunked_byte {hcp hcp' : ChunkParse σ} {chain chain' b p : Bytes} {ch : UInt8}
    (hne : b ≠ []) (h : chunkCopy hcp chain b = (.ended, hcp', chain', ch :: p)) :
    ngxJsHttpParseChunked hcp chain b =
      match chunkSwitch hcp' ch with
      | .more hcp => ngxJsHttpParseChunked hcp chain' p
      | .done () => (.done chain', p)
      | .fail => (.fail, p) := by
  rw [ngxJsHttpParseChunked, if_neg hne]
  split
  · next hcp₂ chain₂ ch₂ p₂ h₂ =>
    rw [h] at h₂
    cases h₂
    rfl
  · next rc₂ hcp₂ chain₂ p₂ hnot h₂ =>
    rw [h] at h₂
    cases h₂
    exact absurd rfl (hnot ch p rfl)

/-! ### The arithmetic -/

/-- The same state with a natural number. -/
def ChunkParse.exact (hcp : ChunkParse UInt64) : ChunkParse ℕ :=
  ⟨hcp.state, hcp.chunkSize.toNat, hcp.last⟩

theorem decimalDigit_lt {ch c : UInt8} (h : decimalDigit ch = some c) : c.toNat < 16 := by
  rw [decimalDigit] at h
  split_ifs at h with hle
  cases h
  have := UInt8.le_iff_toNat_le.mp hle
  exact lt_of_le_of_lt this (by decide)

theorem letterDigit_lt (ch c : UInt8) (h : letterDigit ch = some c) : c.toNat < 16 := by
  have hall : ∀ ch, (letterDigit ch).all (fun c => decide (c.toNat < 16)) = true :=
    Text.forall_byte (by decide)
  simpa [h] using hall ch

theorem sufficient_iff (n : UInt64) : ChunkSize.sufficient n = true ↔ n.toNat < 2 ^ 60 := by
  change decide (n < (1 : UInt64) <<< 60) = true ↔ _
  rw [decide_eq_true_iff, UInt64.lt_iff_toNat_lt]
  rfl

theorem toNat_shift {n : UInt64} {c : UInt8} (hc : c.toNat < 16)
    (h : ChunkSize.sufficient n = true) :
    (ChunkSize.shift n c).toNat = 16 * n.toNat + c.toNat := by
  rw [sufficient_iff] at h
  change ((n <<< 4) + c.toUInt64).toNat = _
  rw [UInt64.toNat_add, UInt64.toNat_shiftLeft, UInt8.toNat_toUInt64]
  change ((n.toNat <<< 4) % 2 ^ 64 + c.toNat) % 2 ^ 64 = _
  rw [Nat.shiftLeft_eq]
  omega

theorem toNat_sub {n : UInt64} {size : ℕ} (h : ChunkSize.less n size = false) :
    (ChunkSize.sub n size).toNat = n.toNat - size := by
  change decide (n.toNat < size) = false at h
  have hle : size ≤ n.toNat := by simpa using h
  have hn := n.toNat_lt
  change (n - UInt64.ofNat size).toNat = _
  have hsize : (UInt64.ofNat size).toNat = size := by
    rw [UInt64.toNat_ofNat']
    omega
  rw [UInt64.toNat_sub_of_le _ _ (UInt64.le_iff_toNat_le.mpr (by omega)), hsize]

theorem isZero_toNat (n : UInt64) : ChunkSize.isZero n.toNat = ChunkSize.isZero n :=
  decide_eq_decide.mpr (by rw [← UInt64.toNat_inj]; rfl)

theorem chunkSwitch_exact (hcp : ChunkParse UInt64) (ch : UInt8) :
    chunkSwitch hcp.exact ch = (chunkSwitch hcp ch).map ChunkParse.exact := by
  obtain ⟨state, n, last⟩ := hcp
  have hnext : ∀ c, c.toNat < 16 → (if ChunkSize.sufficient n.toNat then
        .more ⟨.chunkSize, ChunkSize.shift n.toNat c, last⟩ else .fail) =
      (if ChunkSize.sufficient n then
        .more (⟨.chunkSize, ChunkSize.shift n c, last⟩ : ChunkParse UInt64) else .fail :
          Verdict (ChunkParse UInt64) Unit).map ChunkParse.exact := by
    intro c hc
    by_cases hsuff : ChunkSize.sufficient n = true
    · have hnat : ChunkSize.sufficient n.toNat = true :=
        decide_eq_true ((sufficient_iff n).mp hsuff)
      rw [if_pos hsuff, if_pos hnat, Resumable.Verdict.map_more, ChunkParse.exact,
        toNat_shift hc hsuff]
      rfl
    · have hnat : ¬ ChunkSize.sufficient n.toNat = true := fun h =>
        hsuff ((sufficient_iff n).mpr (of_decide_eq_true h))
      rw [if_neg hsuff, if_neg hnat, Resumable.Verdict.map_fail]
  cases state with
  | start =>
    simp only [chunkSwitch, ChunkParse.exact]
    cases hdec : decimalDigit ch with
    | some c => simp [ChunkParse.exact, ChunkSize.digit]
    | none =>
      cases hlet : letterDigit ch with
      | some c => simp [ChunkParse.exact, ChunkSize.digit]
      | none => rfl
  | chunkSize =>
    simp only [chunkSwitch, ChunkParse.exact]
    cases hdec : decimalDigit ch with
    | some c => exact hnext c (decimalDigit_lt hdec)
    | none =>
      cases hlet : letterDigit ch with
      | some c => exact hnext c (letterDigit_lt ch c hlet)
      | none =>
        simp only
        split <;> rfl
  | chunkSizeLinefeed =>
    simp only [chunkSwitch, ChunkParse.exact, isZero_toNat]
    split_ifs <;> rfl
  | chunkEndNewline =>
    simp only [chunkSwitch, ChunkParse.exact]
    split_ifs <;> rfl
  | chunkEndLinefeed =>
    simp only [chunkSwitch, ChunkParse.exact]
    by_cases hlf : ch = chr '\n'
    · rw [if_pos hlf, if_pos hlf]
      cases last <;> rfl
    · rw [if_neg hlf, if_neg hlf]
      rfl
  | chunk => rfl

theorem chunkCopy_exact (hcp : ChunkParse UInt64) (chain b : Bytes) : chunkCopy hcp.exact chain b =
      ((chunkCopy hcp chain b).1, (chunkCopy hcp chain b).2.1.exact,
        (chunkCopy hcp chain b).2.2) := by
  rw [chunkCopy, chunkCopy]
  change (if hcp.state = .chunk then _ else _) = _
  by_cases hchunk : hcp.state = .chunk
  · rw [if_pos hchunk, if_pos hchunk]
    simp only [ngxJsHttpChunkBuffer]
    have hless : ChunkSize.less hcp.exact.chunkSize b.length =
        ChunkSize.less hcp.chunkSize b.length := rfl
    rw [hless]
    by_cases hlt : ChunkSize.less hcp.chunkSize b.length = true
    · simp only [if_pos hlt]
      rfl
    · have hsub : ChunkSize.sub hcp.exact.chunkSize b.length =
          (ChunkSize.sub hcp.chunkSize b.length).toNat :=
        (toNat_sub (Bool.eq_false_iff.mpr hlt)).symm
      simp only [if_neg hlt, hsub, isZero_toNat]
      split_ifs <;> rfl
  · rw [if_neg hchunk, if_neg hchunk]

/-- Two states and chains that differ in the type of the size. -/
def exactState (s : ChunkParse UInt64 × Bytes) : ChunkParse ℕ × Bytes := (s.1.exact, s.2)

theorem parseChunked_exact (hcp : ChunkParse UInt64) (chain b : Bytes) :
    ngxJsHttpParseChunked hcp.exact chain b = ((ngxJsHttpParseChunked hcp chain b).1.map exactState,
        (ngxJsHttpParseChunked hcp chain b).2) := by
  induction hlen : b.length using Nat.strong_induction_on generalizing hcp chain b with
  | _ n ih =>
    by_cases hne : b = []
    · subst hne
      rw [parseChunked_nil, parseChunked_nil]
      rfl
    have hcopy := chunkCopy_exact hcp chain b
    have hle := length_chunkCopy_le hcp chain b
    rcases hres : chunkCopy hcp chain b with ⟨rc, hcp', chain', p⟩
    rw [hres] at hcopy hle
    by_cases hleft : rc ≠ .ended ∨ p = []
    · rw [parseChunked_left hne hcopy hleft, parseChunked_left hne hres hleft]
      rfl
    rw [not_or, not_not] at hleft
    obtain ⟨rfl, hp⟩ := hleft
    obtain ⟨ch, p, rfl⟩ := List.exists_cons_of_ne_nil hp
    rw [parseChunked_byte hne hcopy, parseChunked_byte hne hres]
    simp only [chunkSwitch_exact]
    cases chunkSwitch hcp' ch with
    | more hcp₂ => exact ih p.length (by simp at hle; omega) hcp₂ chain' p rfl
    | done a => rfl
    | fail => rfl

end Njs.HttpClient
