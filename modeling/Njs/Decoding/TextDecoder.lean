import Njs.Decoding.Stream
import Njs.Lib.ByteOrderMark

/-!
# Decoders of text

A decoder keeps the state of its stream. The byte order mark is looked for in every call.
-/

namespace Njs.Decoding

open Text
open Query (UnicodeDecode njsUtf8DecodeInit)
open Utf8 (decode encode mark markCode count Sound)

/-- `njs_encoding_decode_t`. -/
structure TextDecoder where
  fatal : Bool
  ignoreBom : Bool
  ctx : UnicodeDecode

/-- A string with its size and its length. -/
structure Decoded where
  size : ℕ
  length : ℕ
  bytes : Bytes

/-- `njs_utf8_decode_init`; `upper` stays as it is. -/
def decodeInit (ctx : UnicodeDecode) : UnicodeDecode :=
  { ctx with codepoint := 0, need := 0, lower := 0 }

def njsUtf8Bom : Bytes → ℕ
  | b₀ :: b₁ :: b₂ :: _ => if b₀ = 0xef ∧ b₁ = 0xbb ∧ b₂ = 0xbf then 3 else 0
  | _ => 0

def withoutBom (start : Bytes) : Bytes := start.drop (njsUtf8Bom start)

/-- `njs_text_decoder_decode`: there may be no bytes at all, and none is a type error. -/
def njsTextDecoderDecode (data : TextDecoder) (input : Option Bytes) (stream : Bool) :
    TextDecoder × Option Decoded :=
  let start := if data.ignoreBom then input else input.map withoutBom
  match (njsUtf8StreamLength data.ctx start (!stream) data.fatal).2 with
  | none => (data, none)
  | some (length, size) =>
    let (ctx, dst) := njsUtf8StreamEncode data.ctx (start.getD []) (!stream) false
    let ctx := if stream then ctx else decodeInit ctx
    ({ data with ctx }, some ⟨size, length, dst.getD []⟩)

/-- The calls for the chunks of a stream and the call that ends it: the bytes of the strings. -/
def decodeStream (data : TextDecoder) : List Bytes → TextDecoder × Option Bytes
  | [] =>
    let (data, text) := njsTextDecoderDecode data none false
    (data, text.map (·.bytes))
  | chunk :: chunks =>
    let (data, text) := njsTextDecoderDecode data (some chunk) true
    let (data, rest) := decodeStream data chunks
    (data, text.bind fun text => rest.map (text.bytes ++ ·))

/-- The state that the constructor makes. -/
structure Initial (data : TextDecoder) : Prop where
  codepoint : data.ctx.codepoint = 0
  need : data.ctx.need = 0
  lower : data.ctx.lower = 0

/-! ### The mark -/

theorem withoutBom_cases (l : Bytes) : (∃ v, l = mark ++ v ∧ njsUtf8Bom l = 3 ∧ withoutBom l = v) ∨
      njsUtf8Bom l = 0 ∧ withoutBom l = l := by
  match l with
  | b₀ :: b₁ :: b₂ :: v =>
    by_cases hmark : b₀ = 0xef ∧ b₁ = 0xbb ∧ b₂ = 0xbf
    · obtain ⟨rfl, rfl, rfl⟩ := hmark
      exact .inl ⟨v, rfl, rfl, rfl⟩
    · have hbom : njsUtf8Bom (b₀ :: b₁ :: b₂ :: v) = 0 := if_neg hmark
      refine .inr ⟨hbom, ?_⟩
      rw [withoutBom, hbom, List.drop_zero]
  | [] => exact .inr ⟨rfl, rfl⟩
  | [_] => exact .inr ⟨rfl, rfl⟩
  | [_, _] => exact .inr ⟨rfl, rfl⟩

def marks (chunks : List Bytes) : ℕ := chunks.countP (njsUtf8Bom · ≠ 0)

theorem marks_cons_mark (v : Bytes) (chunks : List Bytes) :
    marks ((mark ++ v) :: chunks) = marks chunks + 1 := List.countP_cons_of_pos (by rfl)

theorem marks_cons_plain {chunk : Bytes} (h : njsUtf8Bom chunk = 0) (chunks : List Bytes) :
    marks (chunk :: chunks) = marks chunks :=
  List.countP_cons_of_neg (by simp [h])

theorem count_withoutBom_le {s : Option Utf8.Pending} (hs : Sound s) (chunks : List Bytes) :
    count s (chunks.flatMap withoutBom) + marks chunks ≤ count s chunks.flatten := by
  induction chunks generalizing s with
  | nil => exact Nat.le_refl _
  | cons chunk chunks ih =>
    rw [List.flatMap_cons, List.flatten_cons]
    rcases withoutBom_cases chunk with ⟨v, rfl, -, hv⟩ | ⟨hbom, hplain⟩
    · rw [hv, marks_cons_mark, List.append_assoc, Utf8.count_mark hs]
      have hle := Utf8.count_le hs (v ++ chunks.flatMap withoutBom)
      have hrest := ih (Utf8.sound_run (s := none) trivial v)
      rw [Utf8.count_append none] at hle ⊢
      omega
    · rw [hplain, marks_cons_plain hbom, Utf8.count_append, Utf8.count_append]
      have hrest := ih (Utf8.sound_run hs chunk)
      omega

variable {chunks : List Bytes}

theorem flatMap_withoutBom_of_marks (h : marks chunks = 0) :
    chunks.flatMap withoutBom = chunks.flatten := by
  induction chunks with
  | nil => rfl
  | cons chunk chunks ih =>
    rcases withoutBom_cases chunk with ⟨v, rfl, -, -⟩ | ⟨hbom, hplain⟩
    · rw [marks_cons_mark] at h
      exact absurd h (Nat.succ_ne_zero _)
    · rw [marks_cons_plain hbom] at h
      rw [List.flatMap_cons, List.flatten_cons, hplain, ih h]

theorem exists_of_marks_eq_one (h : marks chunks = 1) :
    ∃ u v, chunks.flatten = u ++ mark ++ v ∧ chunks.flatMap withoutBom = u ++ v := by
  induction chunks with
  | nil => exact nomatch h
  | cons chunk chunks ih =>
    rw [List.flatMap_cons, List.flatten_cons]
    rcases withoutBom_cases chunk with ⟨v, rfl, -, hv⟩ | ⟨hbom, hplain⟩
    · rw [marks_cons_mark] at h
      refine ⟨[], v ++ chunks.flatten, List.append_assoc _ _ _, ?_⟩
      rw [hv, flatMap_withoutBom_of_marks (Nat.succ.inj h), List.nil_append]
    rw [marks_cons_plain hbom] at h
    obtain ⟨u, v, hflatten, hflatMap⟩ := ih h
    refine ⟨chunk ++ u, v, ?_, ?_⟩
    · rw [hflatten]
      simp only [List.append_assoc]
    · rw [hplain, hflatMap, List.append_assoc]

theorem flatMap_withoutBom_eq
    (h : decode (chunks.flatMap withoutBom) = decode (withoutBom chunks.flatten)) :
    chunks.flatMap withoutBom = withoutBom chunks.flatten := by
  have hle := count_withoutBom_le (s := none) trivial chunks
  rw [← Utf8.length_decode, ← Utf8.length_decode, h] at hle
  rcases withoutBom_cases chunks.flatten with ⟨w, hw, -, hwithout⟩ | ⟨-, hplain⟩
  · rw [hwithout] at h hle ⊢
    have hdecode : decode chunks.flatten = markCode :: decode w := by
      rw [hw]
      exact Utf8.decode_mark [] w
    rw [hdecode, List.length_cons] at hle
    rcases Nat.lt_or_ge (marks chunks) 1 with hlt | hge
    · rw [flatMap_withoutBom_of_marks (Nat.lt_one_iff.1 hlt), hdecode] at h
      have hlength := congrArg List.length h
      rw [List.length_cons] at hlength
      omega
    · obtain ⟨u, v, hflatten, hflatMap⟩ := exists_of_marks_eq_one (show marks chunks = 1 by omega)
      rw [hflatMap] at h ⊢
      exact Utf8.eq_of_decode_mark (hw.symm.trans hflatten) h
  · rw [hplain] at hle ⊢
    exact flatMap_withoutBom_of_marks (by omega)

/-! ### Calls -/

def given (data : TextDecoder) (l : Bytes) : Bytes := if data.ignoreBom then l else withoutBom l

theorem njsTextDecoderDecode_none (data : TextDecoder) (stream : Bool) :
    njsTextDecoderDecode data none stream = njsTextDecoderDecode data (some []) stream := by
  rw [njsTextDecoderDecode, njsTextDecoderDecode]
  split_ifs <;> rfl

theorem njsTextDecoderDecode_run {data : TextDecoder} {l : Bytes} (h : After data.ctx l)
    (hfatal : data.fatal = false) (input : Bytes) (stream : Bool) :
    ∃ ctx' text ns, njsTextDecoderDecode data (some input) stream =
      ({ data with ctx := if stream then ctx' else decodeInit ctx' }, some text) ∧
      text.bytes = encode ns ∧ After ctx' (l ++ given data input) ∧
      (Utf8.run none l).1 ++ ns = (Utf8.run none (l ++ given data input)).1 ++
        if stream then [] else Utf8.finish (Utf8.run none (l ++ given data input)).2 := by
  obtain ⟨ctx', ns, hencode, hafter, hns⟩ :=
    njsUtf8StreamEncode_part h (given data input) (!stream)
  obtain ⟨ctx₁, cps, hencode₁, hlength⟩ :=
    njsUtf8StreamLength_eq data.ctx (given data input) (!stream) false
  obtain ⟨hctx, hcps⟩ := Prod.mk.inj (hencode.symm.trans hencode₁)
  obtain ⟨cps, rfl, -⟩ := Option.map_eq_some_iff.1 hcps.symm
  have hstart : (if data.ignoreBom then some input else (some input).map withoutBom) =
      some (given data input) := by
    rw [given]
    split_ifs <;> rfl
  refine ⟨ctx', ⟨(bytesOf cps).length, cps.length, encode ns⟩, ns, ?_, rfl, hafter, ?_⟩
  · rw [njsTextDecoderDecode, hstart, hfatal, hlength]
    dsimp only [Option.map_some, Option.getD_some]
    rw [hencode]
    rfl
  · cases stream with
    | true => exact hns
    | false => exact hns

theorem decodeStream_run {data : TextDecoder} {l : Bytes} (h : After data.ctx l)
    (hfatal : data.fatal = false) (chunks : List Bytes) : ∃ data' ns,
      decodeStream data chunks = (data', some (encode ns)) ∧ Initial data' ∧
      (Utf8.run none l).1 ++ ns = decode (l ++ chunks.flatMap (given data)) := by
  induction chunks generalizing data l with
  | nil =>
    obtain ⟨ctx', text, ns, heq, htext, -, hns⟩ := njsTextDecoderDecode_run h hfatal [] false
    have hgiven : given data [] = [] := by
      rw [given]
      split_ifs <;> rfl
    refine ⟨{ data with ctx := decodeInit ctx' }, ns, ?_, ⟨rfl, rfl, rfl⟩, ?_⟩
    · rw [decodeStream, njsTextDecoderDecode_none, heq, ← htext]
      rfl
    · rwa [hgiven] at hns
  | cons chunk chunks ih =>
    obtain ⟨ctx', text, ns, heq, htext, hafter, hns⟩ := njsTextDecoderDecode_run h hfatal chunk true
    obtain ⟨data', ns', heq', hinitial, hns'⟩ :=
      @ih { data with ctx := ctx' } (l ++ given data chunk) hafter hfatal
    refine ⟨data', ns ++ ns', ?_, hinitial, ?_⟩
    · rw [if_pos rfl] at heq
      rw [decodeStream, heq]
      dsimp only
      rw [heq', Option.bind_some, Option.map_some, htext, Utf8.encode_append]
    · rw [if_pos rfl, List.append_nil] at hns
      rw [← List.append_assoc, hns, hns', List.flatMap_cons, List.append_assoc]
      rfl

theorem encode_decode_inj {l l' : Bytes} (h : encode (decode l) = encode (decode l')) :
    decode l = decode l' := by
  have hcodes := Utf8.decodes_encode (Utf8.decodes_decode l).isValidChar
  have hcodes' := Utf8.decodes_encode (Utf8.decodes_decode l').isValidChar
  rw [← h] at hcodes'
  exact hcodes.unique hcodes'

/-- A stream is decoded as the whole, and leaves the decoder as it was, if and only if marks at the
beginnings of the chunks are removed just where the mark at the beginning of the whole is. -/
theorem stream_eq_whole_iff {data : TextDecoder} (hinitial : Initial data)
    (hfatal : data.fatal = false) (chunks : List Bytes) :
    ((∃ text, (decodeStream data chunks).2 = some text ∧
        (njsTextDecoderDecode data (some chunks.flatten) false).2.map (·.bytes) = some text) ∧
      Initial (decodeStream data chunks).1) ↔
    data.ignoreBom = true ∨ chunks.flatMap withoutBom = withoutBom chunks.flatten := by
  have hafter : After data.ctx [] := ⟨hinitial.need, hinitial.lower⟩
  obtain ⟨data', ns, hstream, hinitial', hns⟩ := decodeStream_run hafter hfatal chunks
  obtain ⟨ctx', text, ns', hwhole, htext, -, hns'⟩ :=
    njsTextDecoderDecode_run hafter hfatal chunks.flatten false
  have hns : ns = decode (chunks.flatMap (given data)) := hns
  have hns' : ns' = decode (given data chunks.flatten) := hns'
  rw [hstream, hwhole]
  dsimp only [Option.map_some]
  rw [htext, hns, hns']
  constructor
  · rintro ⟨⟨bytes, hbytes, hbytes'⟩, -⟩
    rcases Bool.eq_false_or_eq_true data.ignoreBom with htrue | hfalse
    · exact .inl htrue
    refine .inr (flatMap_withoutBom_eq ?_)
    have hgiven : given data = withoutBom := by
      funext l
      rw [given, hfalse]
      rfl
    rw [hgiven] at hbytes hbytes'
    exact encode_decode_inj (Option.some.inj (hbytes.trans hbytes'.symm))
  intro h
  refine ⟨⟨_, rfl, ?_⟩, hinitial'⟩
  rcases Bool.eq_false_or_eq_true data.ignoreBom with htrue | hfalse
  · have hgiven : given data = id := by
      funext l
      rw [given, htrue]
      rfl
    rw [hgiven, List.flatMap_id]
    rfl
  have hgiven : given data = withoutBom := by
    funext l
    rw [given, hfalse]
    rfl
  rw [hgiven]
  rcases h with htrue | h
  · exact absurd htrue (by rw [hfalse]; decide)
  · rw [h]

def newTextDecoder (ignoreBom : Bool) : TextDecoder := ⟨false, ignoreBom, njsUtf8DecodeInit⟩

theorem stream_eq_whole_letters :
    (∃ text, (decodeStream (newTextDecoder false) [[0xef, 0xbb, 0xbf], [0x41]]).2 = some text ∧
        (njsTextDecoderDecode (newTextDecoder false)
          (some [[0xef, 0xbb, 0xbf], [0x41]].flatten) false).2.map (·.bytes) = some text) ∧
      Initial (decodeStream (newTextDecoder false) [[0xef, 0xbb, 0xbf], [0x41]]).1 :=
  (@stream_eq_whole_iff (newTextDecoder false) ⟨rfl, rfl, rfl⟩ rfl
    [[0xef, 0xbb, 0xbf], [0x41]]).2 (.inr rfl)

/-- A mark that is cut is not removed. -/
theorem not_stream_eq_whole_cut :
    ¬((∃ text, (decodeStream (newTextDecoder false) [[0xef, 0xbb], [0xbf, 0x41]]).2 = some text ∧
        (njsTextDecoderDecode (newTextDecoder false)
          (some [[0xef, 0xbb], [0xbf, 0x41]].flatten) false).2.map (·.bytes) = some text) ∧
      Initial (decodeStream (newTextDecoder false) [[0xef, 0xbb], [0xbf, 0x41]]).1) := by
  rintro ⟨⟨text, hstream, hwhole⟩, -⟩
  have hcut : (decodeStream (newTextDecoder false) [[0xef, 0xbb], [0xbf, 0x41]]).2 =
      some [0xef, 0xbb, 0xbf, 0x41] := by decide
  have htext : (njsTextDecoderDecode (newTextDecoder false)
      (some [[0xef, 0xbb], [0xbf, 0x41]].flatten) false).2.map (·.bytes) = some [0x41] := by
    decide
  have heq := (hcut.symm.trans hstream).trans (hwhole.symm.trans htext)
  exact absurd heq (by decide)

end Njs.Decoding
