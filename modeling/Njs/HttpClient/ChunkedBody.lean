import Njs.HttpClient.Chunked
import Njs.Lib.ResponseLines

/-!
# What the decoder of chunked bodies accepts

The decoder is compared with a machine that reads one byte after the other, and this machine with
the grammar of chunked bodies: what is still to be read is known in every phase.
-/

namespace Njs.HttpClient

open Resumable (Verdict feed drive Accepts)
open Text (chr)
open Http (crlf hexValue sizeFrom IsSize ChunkedBody)

/-! ### One byte at a time -/

/-- Where in a body a byte is read. -/
inductive Phase
  | start
  /-- Digits of the value `n` have been read. -/
  | size (n : ℕ)
  /-- The size `n` and a carriage return have been read. -/
  | sizeLf (n : ℕ)
  /-- There are `n` bytes left of a chunk. -/
  | data (n : ℕ)
  | dataCr
  | dataLf
  | lastCr
  | lastLf

/-- The sizes that 64 bits hold. -/
def Fits (n : ℕ) : Prop := n < 2 ^ 64

instance (n : ℕ) : Decidable (Fits n) := inferInstanceAs (Decidable (n < 2 ^ 64))

def readByte (s : Phase × Bytes) (b : UInt8) : Verdict (Phase × Bytes) Bytes :=
  match s.1 with
  | .start =>
    match hexValue b with
    | some d => .more (.size d, s.2)
    | none => .fail
  | .size n =>
    match hexValue b with
    | some d => if Fits (16 * n + d) then .more (.size (16 * n + d), s.2) else .fail
    | none => if b = 0x0d then .more (.sizeLf n, s.2) else .fail
  | .sizeLf n =>
    if b = 0x0a then .more (if n = 0 then .lastCr else .data n, s.2) else .fail
  | .data n => .more (if n = 1 then .dataCr else .data (n - 1), s.2 ++ [b])
  | .dataCr => if b = 0x0d then .more (.dataLf, s.2) else .fail
  | .dataLf => if b = 0x0a then .more (.start, s.2) else .fail
  | .lastCr => if b = 0x0d then .more (.lastLf, s.2) else .fail
  | .lastLf => if b = 0x0a then .done s.2 else .fail

/-! ### What remains to be read -/

/-- After `n` bytes of a chunk that are still to come. -/
def AfterData (n : ℕ) (v body : Bytes) : Prop :=
  ∃ d t rest, d.length = n ∧ v = d ++ crlf ++ t ∧ ChunkedBody Fits t rest ∧ body = d ++ rest

/-- After the line of a chunk of size `n`. -/
def AfterSize (n : ℕ) (v body : Bytes) : Prop :=
  if n = 0 then v = crlf ∧ body = [] else Fits n ∧ AfterData n v body

def Remains : Phase → Bytes → Bytes → Prop
  | .start, v, body => ChunkedBody Fits v body
  | .size n, v, body =>
    ∃ ds m t, sizeFrom n ds = some m ∧ v = ds ++ crlf ++ t ∧ AfterSize m t body
  | .sizeLf n, v, body => ∃ t, v = 0x0a :: t ∧ AfterSize n t body
  | .data n, v, body => AfterData n v body
  | .dataCr, v, body => ∃ t, v = crlf ++ t ∧ ChunkedBody Fits t body
  | .dataLf, v, body => ∃ t, v = 0x0a :: t ∧ ChunkedBody Fits t body
  | .lastCr, v, body => v = crlf ∧ body = []
  | .lastLf, v, body => v = [0x0a] ∧ body = []

variable {body u : Bytes} {n : ℕ} {b : UInt8}

theorem chunkedBody_iff {v : Bytes} : ChunkedBody Fits v body ↔
      ∃ ds n t, IsSize ds n ∧ v = ds ++ crlf ++ t ∧ AfterSize n t body := by
  constructor
  · intro h
    cases h with
    | last hds => exact ⟨_, 0, crlf, hds, rfl, by simp [AfterSize]⟩
    | @chunk ds data text body hds hne hsize hrest =>
      have hpos : data.length ≠ 0 := fun hlen => hne (List.length_eq_zero_iff.mp hlen)
      refine ⟨ds, data.length, data ++ crlf ++ text, hds, by simp, ?_⟩
      rw [AfterSize, if_neg hpos]
      exact ⟨hsize, data, text, body, rfl, rfl, hrest, rfl⟩
  rintro ⟨ds, n, t, hds, rfl, hafter⟩
  rw [AfterSize] at hafter
  by_cases hn : n = 0
  · rw [if_pos hn] at hafter
    obtain ⟨rfl, rfl⟩ := hafter
    exact .last (hn ▸ hds)
  · rw [if_neg hn] at hafter
    obtain ⟨hfits, d, t, rest, rfl, rfl, hrest, rfl⟩ := hafter
    have hne : d ≠ [] := fun hd => hn (by rw [hd, List.length_nil])
    simpa using ChunkedBody.chunk hds hne hfits hrest

theorem not_remains_nil (ph : Phase) (body : Bytes) : ¬ Remains ph [] body := by
  have happ : ∀ {ds t : Bytes}, ¬ [] = ds ++ crlf ++ t := by simp [crlf]
  cases ph with
  | start =>
    rw [Remains, chunkedBody_iff]
    rintro ⟨ds, n, t, -, hv, -⟩
    exact happ hv
  | size n =>
    rintro ⟨ds, m, t, -, hv, -⟩
    exact happ hv
  | sizeLf n =>
    rintro ⟨t, hv, -⟩
    cases hv
  | data n =>
    rintro ⟨d, t, rest, -, hv, -⟩
    exact happ hv
  | dataCr =>
    rintro ⟨t, hv, -⟩
    cases hv
  | dataLf =>
    rintro ⟨t, hv, -⟩
    cases hv
  | lastCr =>
    rintro ⟨hv, -⟩
    cases hv
  | lastLf =>
    rintro ⟨hv, -⟩
    cases hv

theorem fits_of_shift {d : ℕ} (hd : d < 16) : Fits (16 * n + d) ↔ n < 2 ^ 60 := by
  rw [Fits]
  omega

theorem remains_size : Remains (.size n) (b :: u) body ↔
      (∃ d, hexValue b = some d ∧ Fits (16 * n + d) ∧ Remains (.size (16 * n + d)) u body) ∨
        b = 0x0d ∧ Remains (.sizeLf n) u body := by
  constructor
  · rintro ⟨ds, m, t, hds, hv, hafter⟩
    cases ds with
    | nil =>
      cases hds
      obtain ⟨rfl, rfl⟩ := List.cons.inj hv
      exact .inr ⟨rfl, t, rfl, hafter⟩
    | cons c ds =>
      obtain ⟨rfl, rfl⟩ := List.cons.inj hv
      rw [sizeFrom] at hds
      cases hc : hexValue b with
      | none => simp [hc] at hds
      | some d =>
        rw [hc] at hds
        refine .inl ⟨d, rfl, ?_, ds, m, t, hds, rfl, hafter⟩
        have hge := Http.sizeFrom_ge hds
        rw [AfterSize] at hafter
        split_ifs at hafter with hm
        · have : 16 * n + d = 0 := by omega
          rw [this]
          decide
        · exact lt_of_le_of_lt hge hafter.1
  · rintro (⟨d, hd, -, ds, m, t, hds, rfl, hafter⟩ | ⟨rfl, t, rfl, hafter⟩)
    · refine ⟨b :: ds, m, t, ?_, rfl, hafter⟩
      rw [sizeFrom, hd]
      exact hds
    · exact ⟨[], n, t, rfl, rfl, hafter⟩

theorem remains_start :
    Remains .start (b :: u) body ↔ ∃ d, hexValue b = some d ∧ Remains (.size d) u body := by
  rw [Remains, chunkedBody_iff]
  constructor
  · rintro ⟨ds, n, t, ⟨hne, hds⟩, hv, hafter⟩
    obtain ⟨c, ds, rfl⟩ := List.exists_cons_of_ne_nil hne
    obtain ⟨rfl, rfl⟩ := List.cons.inj hv
    rw [sizeFrom] at hds
    cases hc : hexValue b with
    | none => simp [hc] at hds
    | some d =>
      rw [hc] at hds
      exact ⟨d, rfl, ds, n, t, by simpa using hds, rfl, hafter⟩
  · rintro ⟨d, hd, ds, m, t, hds, rfl, hafter⟩
    refine ⟨b :: ds, m, t, ⟨by simp, ?_⟩, rfl, hafter⟩
    rw [sizeFrom, hd]
    simpa using hds

theorem remains_data (hn : n ≠ 0) : Remains (.data n) (b :: u) body ↔
      ∃ body', body = b :: body' ∧ Remains (if n = 1 then .dataCr else .data (n - 1)) u body' := by
  constructor
  · rintro ⟨d, t, rest, rfl, hv, hrest, rfl⟩
    have hne : d ≠ [] := fun hd => hn (by rw [hd, List.length_nil])
    obtain ⟨c, d, rfl⟩ := List.exists_cons_of_ne_nil hne
    obtain ⟨rfl, rfl⟩ := List.cons.inj hv
    refine ⟨d ++ rest, rfl, ?_⟩
    by_cases hone : (b :: d).length = 1
    · obtain rfl : d = [] := List.length_eq_zero_iff.mp (by simpa using hone)
      rw [if_pos hone]
      exact ⟨t, rfl, hrest⟩
    · rw [if_neg hone]
      exact ⟨d, t, rest, by simp, rfl, hrest, rfl⟩
  rintro ⟨body', rfl, h⟩
  by_cases hone : n = 1
  · rw [if_pos hone] at h
    obtain ⟨t, rfl, hrest⟩ := h
    exact ⟨[b], t, body', hone.symm, rfl, hrest, rfl⟩
  · rw [if_neg hone] at h
    obtain ⟨d, t, rest, hlen, rfl, hrest, rfl⟩ := h
    exact ⟨b :: d, t, rest, by rw [List.length_cons, hlen]; omega, rfl, hrest, rfl⟩

theorem remains_sizeLf (hn : Fits n) : Remains (.sizeLf n) (b :: u) body ↔
      b = 0x0a ∧ Remains (if n = 0 then .lastCr else .data n) u body := by
  have hafter : AfterSize n u body ↔ Remains (if n = 0 then .lastCr else .data n) u body := by
    rw [AfterSize]
    split_ifs
    · exact Iff.rfl
    · exact and_iff_right hn
  rw [← hafter]
  constructor
  · rintro ⟨t, hv, h⟩
    obtain ⟨rfl, rfl⟩ := List.cons.inj hv
    exact ⟨rfl, h⟩
  · rintro ⟨rfl, h⟩
    exact ⟨u, rfl, h⟩

theorem remains_dataCr : Remains .dataCr (b :: u) body ↔ b = 0x0d ∧ Remains .dataLf u body := by
  constructor
  · rintro ⟨t, hv, h⟩
    obtain ⟨rfl, rfl⟩ := List.cons.inj hv
    exact ⟨rfl, t, rfl, h⟩
  · rintro ⟨rfl, t, rfl, h⟩
    exact ⟨t, rfl, h⟩

theorem remains_dataLf : Remains .dataLf (b :: u) body ↔ b = 0x0a ∧ Remains .start u body := by
  constructor
  · rintro ⟨t, hv, h⟩
    obtain ⟨rfl, rfl⟩ := List.cons.inj hv
    exact ⟨rfl, h⟩
  · rintro ⟨rfl, h⟩
    exact ⟨u, rfl, h⟩

theorem remains_lastCr : Remains .lastCr (b :: u) body ↔ b = 0x0d ∧ Remains .lastLf u body := by
  simp [Remains, crlf, and_assoc]

/-- The phases that are reached: a chunk in which nothing is left is over, and a size fits. -/
def Phase.Valid : Phase → Prop
  | .size n | .sizeLf n => Fits n
  | .data n => n ≠ 0
  | _ => True

theorem readByte_valid {s s' : Phase × Bytes} {b : UInt8} (hs : s.1.Valid)
    (h : readByte s b = .more s') : s'.1.Valid := by
  obtain ⟨ph, chain⟩ := s
  cases ph with
  | start =>
    simp only [readByte] at h
    cases hb : hexValue b with
    | none => simp [hb] at h
    | some d =>
      rw [hb] at h
      cases h
      have := Http.hexValue_lt b d hb
      exact lt_trans this (by decide)
  | size n =>
    simp only [readByte] at h
    cases hb : hexValue b with
    | none =>
      simp only [hb] at h
      split_ifs at h
      cases h
      exact hs
    | some d =>
      simp only [hb] at h
      split_ifs at h with hfits
      cases h
      exact hfits
  | sizeLf n =>
    simp only [readByte] at h
    split_ifs at h with hb hn
    · cases h
      trivial
    · cases h
      exact hn
  | data n =>
    simp only [readByte] at h
    split_ifs at h with hn
    · cases h
      trivial
    · cases h
      have hpos : n ≠ 0 := hs
      change n - 1 ≠ 0
      omega
  | dataCr =>
    simp only [readByte] at h
    split_ifs at h
    cases h
    trivial
  | dataLf =>
    simp only [readByte] at h
    split_ifs at h
    cases h
    trivial
  | lastCr =>
    simp only [readByte] at h
    split_ifs at h
    cases h
    trivial
  | lastLf =>
    simp only [readByte] at h
    split_ifs at h

theorem accepts_iff {ph : Phase} (hvalid : ph.Valid) {chain v : Bytes} :
    Accepts readByte (ph, chain) v body ↔ ∃ tail, body = chain ++ tail ∧ Remains ph v tail := by
  induction v generalizing ph chain with
  | nil =>
    constructor
    · intro h
      exact h.elim
    · rintro ⟨tail, -, h⟩
      exact (not_remains_nil ph tail h).elim
  | cons b v ih =>
    -- A step that copies nothing.
    have hmove : ∀ ph' : Phase, readByte (ph, chain) b = .more (ph', chain) →
        (∀ tail, Remains ph (b :: v) tail ↔ Remains ph' v tail) →
        (Accepts readByte (ph, chain) (b :: v) body ↔
          ∃ tail, body = chain ++ tail ∧ Remains ph (b :: v) tail) := by
      intro ph' hstep hrem
      rw [Resumable.accepts_more hstep, ih (readByte_valid hvalid hstep)]
      simp only [hrem]
    have hfail : readByte (ph, chain) b = .fail → (∀ tail, ¬ Remains ph (b :: v) tail) →
        (Accepts readByte (ph, chain) (b :: v) body ↔
          ∃ tail, body = chain ++ tail ∧ Remains ph (b :: v) tail) := by
      intro hstep hrem
      simp [Resumable.not_accepts_fail hstep, hrem]
    -- A step that asks for one byte.
    have hliteral : ∀ (c : UInt8) (ph' : Phase),
        readByte (ph, chain) b = (if b = c then .more (ph', chain) else .fail) →
        (∀ tail, Remains ph (b :: v) tail ↔ b = c ∧ Remains ph' v tail) →
        (Accepts readByte (ph, chain) (b :: v) body ↔
          ∃ tail, body = chain ++ tail ∧ Remains ph (b :: v) tail) := by
      intro c ph' hstep hrem
      by_cases hb : b = c
      · exact hmove ph' (hstep.trans (if_pos hb)) fun tail => by rw [hrem, and_iff_right hb]
      · exact hfail (hstep.trans (if_neg hb)) fun tail h => hb ((hrem tail).mp h).1
    cases ph with
    | start =>
      cases hb : hexValue b with
      | none => exact hfail (by simp [readByte, hb]) fun tail => by simp [remains_start, hb]
      | some d =>
        exact hmove (.size d) (by simp [readByte, hb]) fun tail => by simp [remains_start, hb]
    | size n =>
      cases hb : hexValue b with
      | none =>
        refine hliteral 0x0d (.sizeLf n) (by simp [readByte, hb]) fun tail => ?_
        simp [remains_size, hb]
      | some d =>
        have hcr : b ≠ 0x0d := by
          rintro rfl
          simp [Http.hexValue_eq_none] at hb
        by_cases hfits : Fits (16 * n + d)
        · refine hmove (.size (16 * n + d)) (by simp [readByte, hb, hfits]) fun tail => ?_
          simp [remains_size, hb, hfits, hcr]
        · refine hfail (by simp [readByte, hb, hfits]) fun tail => ?_
          simp [remains_size, hb, hfits, hcr]
    | sizeLf n => exact hliteral _ _ rfl fun tail => remains_sizeLf hvalid
    | data n =>
      have hstep : readByte (.data n, chain) b =
          .more (if n = 1 then .dataCr else .data (n - 1), chain ++ [b]) := rfl
      rw [Resumable.accepts_more hstep]
      simp only [ih (readByte_valid hvalid hstep), remains_data hvalid]
      constructor
      · rintro ⟨tail, rfl, h⟩
        exact ⟨b :: tail, by simp, tail, rfl, h⟩
      · rintro ⟨_, rfl, tail, rfl, h⟩
        exact ⟨tail, by simp, h⟩
    | dataCr => exact hliteral _ _ rfl fun tail => remains_dataCr
    | dataLf => exact hliteral _ _ rfl fun tail => remains_dataLf
    | lastCr => exact hliteral _ _ rfl fun tail => remains_lastCr
    | lastLf =>
      by_cases hlf : b = 0x0a
      · have hstep : readByte (.lastLf, chain) b = .done chain := if_pos hlf
        rw [Resumable.accepts_done hstep]
        simp [Remains, hlf, eq_comm, and_comm]
      · exact hfail (if_neg hlf) fun tail => by simp [Remains, hlf]

theorem exists_accepts {s : Phase × Bytes} (hvalid : s.1.Valid) :
    ∃ v body, Accepts readByte s v body := by
  obtain ⟨ph, chain⟩ := s
  have hzero : ChunkedBody Fits ([0x30] ++ crlf ++ crlf) [] := ChunkedBody.zero
  have hafter : ∀ n, AfterData n (List.replicate n 0 ++ crlf ++ ([0x30] ++ crlf ++ crlf))
      (List.replicate n 0) := fun n =>
    ⟨_, _, [], List.length_replicate, rfl, hzero, (List.append_nil _).symm⟩
  have hline : ∀ n, Fits n → ∃ t tail, AfterSize n t tail := by
    intro n hn
    by_cases hzero : n = 0
    · exact ⟨crlf, [], by simp [AfterSize, hzero]⟩
    · exact ⟨_, _, (if_neg hzero).mpr ⟨hn, hafter n⟩⟩
  have hremains : ∃ v tail, Remains ph v tail := by
    cases ph with
    | start => exact ⟨_, _, hzero⟩
    | size n =>
      obtain ⟨t, tail, ht⟩ := hline n hvalid
      exact ⟨_, tail, [], n, t, rfl, rfl, ht⟩
    | sizeLf n =>
      obtain ⟨t, tail, ht⟩ := hline n hvalid
      exact ⟨_, tail, t, rfl, ht⟩
    | data n => exact ⟨_, _, hafter n⟩
    | dataCr => exact ⟨_, _, _, rfl, hzero⟩
    | dataLf => exact ⟨_, _, _, rfl, hzero⟩
    | lastCr => exact ⟨_, _, rfl, rfl⟩
    | lastLf => exact ⟨_, _, rfl, rfl⟩
  obtain ⟨v, tail, h⟩ := hremains
  exact ⟨v, _, (accepts_iff hvalid).mpr ⟨tail, rfl, h⟩⟩

/-! ### The decoder reads bytes -/

def ChunkParse.phase (hcp : ChunkParse ℕ) : Phase :=
  match hcp.state with
  | .start => .start
  | .chunkSize => .size hcp.chunkSize
  | .chunkSizeLinefeed => .sizeLf hcp.chunkSize
  | .chunk => .data hcp.chunkSize
  | .chunkEndNewline => if hcp.last then .lastCr else .dataCr
  | .chunkEndLinefeed => if hcp.last then .lastLf else .dataLf

/-- The states that are reached: `last` is set after the last size only. -/
structure ChunkParse.Valid (hcp : ChunkParse ℕ) : Prop where
  phase : hcp.phase.Valid
  last : hcp.last = true → hcp.state = .chunkEndNewline ∨ hcp.state = .chunkEndLinefeed

def phaseState (s : ChunkParse ℕ × Bytes) : Phase × Bytes := (s.1.phase, s.2)

theorem hexValue_eq (ch : UInt8) : hexValue ch =
      match decimalDigit ch with
      | some c => some c.toNat
      | none => (letterDigit ch).map UInt8.toNat := by
  revert ch
  exact Text.forall_byte (by decide)

variable {hcp : ChunkParse ℕ}

/-- Outside of a chunk the `switch` does what the machine does. -/
theorem chunkSwitch_phase (hvalid : hcp.Valid) (hchunk : hcp.state ≠ .chunk) (chain : Bytes)
    (ch : UInt8) :
    readByte (hcp.phase, chain) ch =
        (match chunkSwitch hcp ch with
        | .more hcp => .more (hcp.phase, chain)
        | .done () => .done chain
        | .fail => .fail) ∧
      ∀ hcp', chunkSwitch hcp ch = .more hcp' → hcp'.last = true →
        hcp'.state = .chunkEndNewline ∨ hcp'.state = .chunkEndLinefeed := by
  obtain ⟨state, n, last⟩ := hcp
  have hlast : ∀ {st}, st = state → st ≠ .chunkEndNewline → st ≠ .chunkEndLinefeed →
      last = false := by
    rintro _ rfl h₁ h₂
    exact Bool.eq_false_iff.mpr fun h => (hvalid.last h).elim h₁ h₂
  have hhex := hexValue_eq ch
  cases state with
  | chunk => exact absurd rfl hchunk
  | start =>
    obtain rfl := hlast rfl (by simp) (by simp)
    simp only [chunkSwitch, ChunkParse.phase, readByte, hhex]
    cases decimalDigit ch with
    | some c => exact ⟨rfl, by rintro _ ⟨⟩ ⟨⟩⟩
    | none =>
      cases letterDigit ch with
      | some c => exact ⟨rfl, by rintro _ ⟨⟩ ⟨⟩⟩
      | none => exact ⟨rfl, by rintro _ ⟨⟩⟩
  | chunkSize =>
    obtain rfl := hlast rfl (by simp) (by simp)
    have hnext : ∀ c : UInt8, hexValue ch = some c.toNat →
        (if Fits (16 * n + c.toNat) then .more (.size (16 * n + c.toNat), chain) else .fail :
          Verdict (Phase × Bytes) Bytes) =
        if ChunkSize.sufficient n then .more (.size (ChunkSize.shift n c), chain) else .fail := by
      intro c hc
      have hlt := Http.hexValue_lt ch _ hc
      have hsuff : (ChunkSize.sufficient n = true) = Fits (16 * n + c.toNat) :=
        propext (decide_eq_true_iff.trans (fits_of_shift hlt).symm)
      simp only [hsuff]
      rfl
    simp only [chunkSwitch, ChunkParse.phase, readByte]
    rw [hhex]
    cases hdec : decimalDigit ch with
    | some c =>
      simp only [hdec] at hhex ⊢
      rw [hnext c hhex]
      split_ifs
      · exact ⟨rfl, by rintro _ ⟨⟩ ⟨⟩⟩
      · exact ⟨rfl, by rintro _ ⟨⟩⟩
    | none =>
      cases hlet : letterDigit ch with
      | some c =>
        simp only [hdec, hlet, Option.map_some] at hhex ⊢
        rw [hnext c hhex]
        split_ifs
        · exact ⟨rfl, by rintro _ ⟨⟩ ⟨⟩⟩
        · exact ⟨rfl, by rintro _ ⟨⟩⟩
      | none =>
        simp only [Option.map_none]
        by_cases hcr : ch = 0x0d
        · simp only [if_pos hcr, if_pos (show ch = chr '\r' from hcr)]
          exact ⟨trivial, by rintro _ ⟨⟩ ⟨⟩⟩
        · simp only [if_neg hcr, if_neg (show ¬ ch = chr '\r' from hcr)]
          exact ⟨trivial, by rintro _ ⟨⟩⟩
  | chunkSizeLinefeed =>
    obtain rfl := hlast rfl (by simp) (by simp)
    simp only [chunkSwitch, ChunkParse.phase, readByte]
    by_cases hlf : ch = 0x0a
    · simp only [if_pos hlf, if_pos (show ch = chr '\n' from hlf)]
      by_cases hn : n = 0
      · rw [if_pos hn, if_pos (show ChunkSize.isZero n = true from decide_eq_true hn)]
        exact ⟨rfl, by rintro _ ⟨⟩ -; exact .inl rfl⟩
      · rw [if_neg hn, if_neg (show ¬ ChunkSize.isZero n = true from fun h =>
          hn (of_decide_eq_true h))]
        exact ⟨rfl, by rintro _ ⟨⟩ ⟨⟩⟩
    · simp only [if_neg hlf, if_neg (show ¬ ch = chr '\n' from hlf)]
      exact ⟨trivial, by rintro _ ⟨⟩⟩
  | chunkEndNewline =>
    simp only [chunkSwitch, ChunkParse.phase]
    by_cases hcr : ch = chr '\r'
    · rw [if_pos hcr]
      refine ⟨?_, by rintro _ ⟨⟩ -; exact .inr rfl⟩
      cases last <;> exact if_pos hcr
    · rw [if_neg hcr]
      refine ⟨?_, by rintro _ ⟨⟩⟩
      cases last <;> exact if_neg hcr
  | chunkEndLinefeed =>
    simp only [chunkSwitch, ChunkParse.phase]
    by_cases hlf : ch = chr '\n'
    · rw [if_pos hlf]
      cases last with
      | false => exact ⟨if_pos hlf, by rintro _ ⟨⟩ ⟨⟩⟩
      | true => exact ⟨if_pos hlf, by rintro _ ⟨⟩⟩
    · rw [if_neg hlf]
      refine ⟨?_, by rintro _ ⟨⟩⟩
      cases last <;> exact if_neg hlf

theorem feed_data_lt {b : Bytes} (h : b.length < n) (chain : Bytes) :
    feed readByte (.data n, chain) b = (.more (.data (n - b.length), chain ++ b), []) := by
  induction b generalizing n chain with
  | nil => simp [feed]
  | cons c b ih =>
    rw [List.length_cons] at h
    have hone : n ≠ 1 := by omega
    rw [feed]
    simp only [readByte, if_neg hone]
    rw [ih (by omega), List.length_cons, Nat.sub_sub, Nat.add_comm 1, List.append_assoc]
    rfl

theorem feed_data_eq {b : Bytes} (hne : b ≠ []) (chain p : Bytes) :
    feed readByte (.data b.length, chain) (b ++ p) = feed readByte (.dataCr, chain ++ b) p := by
  induction b generalizing chain with
  | nil => exact absurd rfl hne
  | cons c b ih =>
    rw [List.cons_append, feed]
    by_cases hb : b = []
    · subst hb
      rfl
    · have hone : (c :: b).length ≠ 1 := by simpa using hb
      simp only [readByte, if_neg hone]
      have := ih hb (chain ++ [c])
      rwa [List.append_assoc] at this

/-- What the part before the `switch` does: it reads bytes of a chunk. -/
theorem chunkCopy_phase {hcp' : ChunkParse ℕ} (hvalid : hcp.Valid) {chain chain' b p : Bytes}
    {rc : ChunkRc} (hne : b ≠ []) (h : chunkCopy hcp chain b = (rc, hcp', chain', p)) :
    hcp'.Valid ∧ (rc = .ended → hcp'.state ≠ .chunk ∧ p ≠ []) ∧ (rc ≠ .ended → p = []) ∧
      feed readByte (hcp.phase, chain) b = feed readByte (hcp'.phase, chain') p := by
  rw [chunkCopy] at h
  by_cases hchunk : hcp.state = .chunk
  · obtain ⟨state, n, last⟩ := hcp
    obtain rfl : state = .chunk := hchunk
    have hn : n ≠ 0 := hvalid.phase
    obtain rfl : last = false :=
      Bool.eq_false_iff.mpr fun hlast => (hvalid.last hlast).elim (by simp) (by simp)
    simp only [if_true, ngxJsHttpChunkBuffer] at h
    by_cases hlt : ChunkSize.less n b.length = true
    · have hlen : n < b.length := of_decide_eq_true hlt
      simp only [if_pos hlt, reduceCtorEq, if_false] at h
      cases h
      change ChunkParse.Valid ⟨.chunkEndNewline, n, false⟩ ∧ (_ → _ ∧ b.drop n ≠ []) ∧ _ ∧
        feed readByte (.data n, chain) b = feed readByte (.dataCr, chain ++ b.take n) (b.drop n)
      have htake : (b.take n).length = n := List.length_take_of_le hlen.le
      refine ⟨⟨trivial, by rintro ⟨⟩⟩, fun _ => ⟨by simp, ?_⟩, fun hrc => absurd rfl hrc, ?_⟩
      · rw [Ne, List.drop_eq_nil_iff]
        omega
      · have hread := feed_data_eq (b := b.take n) (by
          rw [← List.length_pos_iff_ne_nil]
          omega) chain (b.drop n)
        rwa [htake, List.take_append_drop] at hread
    · have hlen : b.length ≤ n := by simpa using of_decide_eq_false (Bool.eq_false_iff.mpr hlt)
      simp only [if_neg hlt] at h
      by_cases hzero : n = b.length
      · subst hzero
        have hz : ChunkSize.isZero (ChunkSize.sub b.length b.length) = true :=
          decide_eq_true (Nat.sub_self _)
        simp only [if_pos hz, reduceCtorEq, if_false] at h
        cases h
        refine ⟨⟨trivial, by rintro ⟨⟩⟩, by rintro ⟨⟩, fun _ => rfl, ?_⟩
        have hread := feed_data_eq hne chain []
        rwa [List.append_nil] at hread
      have hz : ¬ ChunkSize.isZero (ChunkSize.sub n b.length) = true := fun hz => by
        have : n - b.length = 0 := of_decide_eq_true hz
        omega
      simp only [if_neg hz, if_true] at h
      cases h
      have hshort : b.length < n := by omega
      refine ⟨⟨?_, by rintro ⟨⟩⟩, by rintro ⟨⟩, fun _ => rfl, feed_data_lt hshort chain⟩
      change n - b.length ≠ 0
      omega
  · rw [if_neg hchunk] at h
    cases h
    exact ⟨hvalid, fun _ => ⟨hchunk, hne⟩, fun hrc => absurd rfl hrc, rfl⟩

theorem parseChunked_feed (hvalid : hcp.Valid) (chain b : Bytes) :
    feed readByte (hcp.phase, chain) b = ((ngxJsHttpParseChunked hcp chain b).1.map phaseState,
          (ngxJsHttpParseChunked hcp chain b).2) ∧
      ∀ s, (ngxJsHttpParseChunked hcp chain b).1 = .more s → s.1.Valid := by
  induction hlen : b.length using Nat.strong_induction_on generalizing hcp chain b with
  | _ n ih =>
    by_cases hne : b = []
    · subst hne
      rw [parseChunked_nil]
      refine ⟨rfl, ?_⟩
      rintro _ ⟨⟩
      exact hvalid
    rcases hres : chunkCopy hcp chain b with ⟨rc, hcp', chain', p⟩
    have hle := length_chunkCopy_le hcp chain b
    rw [hres] at hle
    obtain ⟨hvalid', hended, hleft, hfeed⟩ := chunkCopy_phase hvalid hne hres
    rw [hfeed]
    by_cases hrc : rc = .ended
    · obtain ⟨hstate, hp⟩ := hended hrc
      obtain ⟨ch, p, rfl⟩ := List.exists_cons_of_ne_nil hp
      subst hrc
      rw [parseChunked_byte hne hres]
      obtain ⟨hbyte, hlast⟩ := chunkSwitch_phase hvalid' hstate chain' ch
      rw [feed, hbyte]
      cases hswitch : chunkSwitch hcp' ch with
      | more hcp₂ =>
        rw [hswitch] at hbyte
        have hvalid₂ : hcp₂.Valid :=
          ⟨readByte_valid (s := (hcp'.phase, chain')) hvalid'.phase hbyte, hlast hcp₂ hswitch⟩
        exact ih p.length (by simp at hle; omega) hvalid₂ chain' p rfl
      | done a => exact ⟨rfl, by rintro _ ⟨⟩⟩
      | fail => exact ⟨rfl, by rintro _ ⟨⟩⟩
    · rw [parseChunked_left hne hres (.inl hrc), hleft hrc]
      refine ⟨rfl, ?_⟩
      rintro _ ⟨⟩
      exact hvalid'

/-! ### Sequences of buffers -/

/-- The decoder on buffers that follow each other. -/
def decode (bufs : List Bytes) : Verdict (ChunkParse UInt64 × Bytes) Bytes :=
  drive (fun s b => (ngxJsHttpParseChunked s.1 s.2 b).1) (ChunkParse.init, []) bufs

/-- The decoder with natural numbers for sizes. -/
def decodeExact (bufs : List Bytes) : Verdict (ChunkParse ℕ × Bytes) Bytes :=
  drive (fun s b => (ngxJsHttpParseChunked s.1 s.2 b).1) (ChunkParse.init, []) bufs

theorem decodeExact_eq (bufs : List Bytes) : decodeExact bufs = (decode bufs).map exactState := by
  have hread : ∀ (s : ChunkParse UInt64 × Bytes) (b : Bytes), True →
      (ngxJsHttpParseChunked (exactState s).1 (exactState s).2 b).1 =
        (ngxJsHttpParseChunked s.1 s.2 b).1.map exactState :=
    fun s b _ => congrArg Prod.fst (parseChunked_exact s.1 s.2 b)
  exact Resumable.drive_map exactState (fun _ _ _ _ _ => trivial) hread
    (s := (ChunkParse.init, [])) trivial bufs

theorem feed_flatten (bufs : List Bytes) :
    (feed readByte (.start, []) bufs.flatten).1 = (decodeExact bufs).map phaseState := by
  have hvalid : (ChunkParse.init : ChunkParse ℕ).Valid := ⟨trivial, by rintro ⟨⟩⟩
  rw [← Resumable.drive_feed]
  exact Resumable.drive_map phaseState (I := fun s => s.1.Valid)
    (fun s b s' hs h => (parseChunked_feed hs s.2 b).2 s' h)
    (fun s b hs => congrArg Prod.fst (parseChunked_feed hs s.2 b).1)
    (s := (ChunkParse.init, [])) hvalid bufs

/-- The decoder is done when the input starts with a chunked body whose sizes fit into 64 bits, and
has then decoded it; it fails when no continuation of the input starts with one; and its 64-bit
arithmetic is that of the natural numbers. -/
theorem decode_exact (bufs : List Bytes) : (∀ body, decode bufs = .done body ↔
      ∃ text rest, bufs.flatten = text ++ rest ∧ ChunkedBody Fits text body) ∧
    (decode bufs = .fail ↔
      ∀ t text rest body, bufs.flatten ++ t = text ++ rest → ¬ ChunkedBody Fits text body) ∧
    decodeExact bufs = (decode bufs).map exactState := by
  have hfeed : (feed readByte (.start, []) bufs.flatten).1 =
      ((decode bufs).map exactState).map phaseState := by
    rw [feed_flatten, decodeExact_eq]
  have hstart : (Phase.start, ([] : Bytes)).1.Valid := trivial
  have haccepts : ∀ text body, Accepts readByte (.start, []) text body ↔
      ChunkedBody Fits text body := by
    intro text body
    rw [accepts_iff hstart]
    simp [Remains]
  refine ⟨fun body => ?_, ?_, decodeExact_eq bufs⟩
  · have hdone : decode bufs = .done body ↔
        (feed readByte (.start, []) bufs.flatten).1 = .done body := by
      rw [hfeed]
      cases decode bufs <;> simp
    rw [hdone, Resumable.feed_done_iff]
    simp only [haccepts]
  have hfail : decode bufs = .fail ↔ (feed readByte (.start, []) bufs.flatten).1 = .fail := by
    rw [hfeed]
    cases decode bufs <;> simp
  rw [hfail, Resumable.feed_fail_iff (I := fun s => s.1.Valid)
    (fun s b s' hs h => readByte_valid hs h) (fun s hs => exists_accepts hs) hstart]
  simp only [haccepts]

/-- The first 17 digits of a chunk of `2 ^ 64` bytes. -/
def hugeSize : Bytes := 0x31 :: List.replicate 16 0x30

/-- They are refused, although such a chunk could follow. -/
theorem not_decode_exact_huge :
    ¬ ∀ bufs : List Bytes, decode bufs = .fail ↔
      ∀ t text rest body, bufs.flatten ++ t = text ++ rest →
        ¬ ChunkedBody (fun _ => True) text body := by
  intro h
  have hfail : decode [hugeSize] = .fail := by
    have hread : (feed readByte (.start, []) [hugeSize].flatten).1 = .fail := rfl
    rw [feed_flatten, decodeExact_eq] at hread
    cases hdec : decode [hugeSize] <;> simp [hdec] at hread
    rfl
  obtain ⟨n, hn, hsize⟩ : ∃ n, n ≠ 0 ∧ IsSize hugeSize n := by
    have hone : hexValue 0x31 = some 1 := by decide
    refine ⟨16 ^ 16 * (16 * 0 + 1), by simp, by simp [hugeSize], ?_⟩
    rw [hugeSize, sizeFrom, hone]
    exact Http.sizeFrom_zeros _ _
  have hne : List.replicate n (0 : UInt8) ≠ [] := by simpa using hn
  rw [← List.length_replicate (n := n) (a := (0 : UInt8))] at hsize
  refine (h [hugeSize]).mp hfail
    (crlf ++ (List.replicate n 0 ++ (crlf ++ ([0x30] ++ crlf ++ crlf)))) _ [] _ ?_
    (ChunkedBody.chunk hsize hne trivial ChunkedBody.zero)
  simp only [List.flatten_singleton, List.append_nil, List.append_assoc]

end Njs.HttpClient
