import Mathlib.Algebra.Order.Group.Nat
import Njs.Buffer.Search

/-!
# `fill` of buffers

A range is filled with copies of a pattern. The copies of a typed array are made from its place in
memory, one after the other, so that an array which overlaps the range is overwritten meanwhile; and
the place is counted in bytes where the offset of a typed array is counted in elements.
-/

namespace Njs.Buffer

open Arrays (IntegerOrInfinity)
open Strings (StringProp)

/-! ### The code -/

/-- What a range is filled with. What is neither a string nor a typed array is given by the number
that it is converted to. -/
inductive FillValue
  | string (s : StringProp)
  | typedArray (src : TypedArray)
  | number (n : IntegerOrInfinity)

def fillLoop (source : Memory → ℕ → Bytes) (length stop : ℕ) :
    ℕ → ℕ → Memory → Except Stopped Memory
  | 0, start, m => if start < stop then .error .endless else .ok m
  | rounds + 1, start, m =>
    if start < stop then
      let n := min length (stop - start)
      fillLoop source length stop rounds (start + n) (m.write start (source m n))
    else .ok m

def njsBufferFillString (value : StringProp) (m : Memory) (encoding : Encoding) (start stop : ℕ) :
    Except Stopped Memory :=
  let str := njsBufferDecodeString value encoding
  if str.length = 0 then .ok (m.write start (List.replicate (stop - start) 0))
  else fillLoop (fun _ n => str.take n) str.length stop (stop - start) start m

/-- `njs_buffer_fill_typed_array`, for a target in a block. -/
def njsBufferFillTypedArray (value : TypedArray) (h : Heap) (d start stop : ℕ) :
    Except Stopped Memory :=
  match (h.buffer value.buffer).data with
  | none => .error (.thrown (.typeError "detached buffer"))
  | some e =>
    let byteLength := value.byteLength
    let m := h.block d
    if byteLength = 0 then .ok (m.write start (List.replicate (stop - start) 0))
    else if e = d then
      fillLoop (fun m n => m.read value.offset n) byteLength stop (stop - start) start m
    else fillLoop (fun _ n => (h.block e).read value.offset n) byteLength stop (stop - start) start
      m

def fillRange (h : Heap) (d : ℕ) (fill : FillValue) (encode : Argument) (start stop : ℕ) :
    Except Stopped Memory :=
  match fill with
  | .string s =>
    match njsBufferEncoding encode with
    | .error e => .error (.thrown e)
    | .ok encoding => njsBufferFillString s (h.block d) encoding start stop
  | .typedArray src => njsBufferFillTypedArray src h d start stop
  | .number n =>
    let byte := UInt8.ofNat (njsNumberToUint32 n &&& 0xff)
    .ok ((h.block d).write start (List.replicate (stop - start) byte))

def njsBufferFill (h : Heap) (array : TypedArray) (fill : FillValue) (encode : Argument)
    (offset stop : ℕ) : Except Stopped Unit × Heap :=
  match h.njsTypedArrayWritable array with
  | .error e => (.error (.thrown e), h)
  | .ok (d, h) =>
    if offset > array.byteLength then
      (.error (.thrown (.rangeError "\"offset\" is out of range")), h)
    else if stop > array.byteLength then
      (.error (.thrown (.rangeError "\"end\" is out of range")), h)
    else if offset ≥ stop then (.ok (), h)
    else
      match fillRange h d fill encode (array.offset + offset) (array.offset + stop) with
      | .error e => (.error e, h)
      | .ok m => (.ok (), h.store d m)

def fillArguments (overflow : BitVec 64) (array : TypedArray) (value : FillValue)
    (valueOffset valueEnd encode : Argument) : Except Thrown (ℕ × ℕ × Argument) :=
  match value, valueOffset with
  | .string _, .string _ _ => .ok (0, array.byteLength, valueOffset)
  | _, _ => do
    let offset ← njsValueToIndex overflow valueOffset.integer
    match value, valueEnd with
    | _, .undefined => return (offset, array.byteLength, encode)
    | .string _, .string _ _ => return (offset, array.byteLength, valueEnd)
    | _, _ => return (offset, ← njsValueToIndex overflow valueEnd.integer, encode)

def njsBufferPrototypeFill (overflow : BitVec 64) (h : Heap) (this : TypedArray)
    (value : Option FillValue) (valueOffset valueEnd encode : Argument) :
    Except Stopped Unit × Heap :=
  match value with
  | none => (.ok (), h)
  | some value =>
    match njsBufferSlot this with
    | .error e => (.error (.thrown e), h)
    | .ok array =>
      match fillArguments overflow array value valueOffset valueEnd encode with
      | .error e => (.error (.thrown e), h)
      | .ok (offset, stop, encode) => njsBufferFill h array value encode offset stop

/-! ### What a range is to be filled with -/

def pattern (x : Bytes) (n : ℕ) : Bytes := (List.range n).map fun k => x.getD (k % x.length) 0

def FillValue.IsPattern (value : FillValue) (h : Heap) (encode : Argument) (x : Bytes) : Prop :=
  match value with
  | .string s => ∃ encoding, njsBufferEncoding encode = .ok encoding ∧
      x = njsBufferDecodeString s encoding
  | .typedArray src => src.Within h ∧ (h.buffer src.buffer).data ≠ none ∧ x = src.bytes h
  | .number n => x = [UInt8.ofNat (njsNumberToUint32 n)]

def FillValue.Repeats (value : FillValue) (h : Heap) (array : TypedArray) (offset stop : ℕ)
    (x : Bytes) : Prop :=
  match value with
  | .typedArray src =>
    (∀ j < x.length, j < stop - offset → h.get src.buffer (src.offset + j) = some (x.getD j 0)) ∧
      (src.buffer = array.buffer → ∀ k < stop - offset,
        array.start + offset ≤ src.offset + k % x.length →
        src.offset + k % x.length < array.start + offset + x.length * (k / x.length) →
        x.getD ((src.offset + k % x.length - (array.start + offset)) % x.length) 0 =
          x.getD (k % x.length) 0)
  | _ => True

@[simp] theorem length_pattern (x : Bytes) (n : ℕ) : (pattern x n).length = n := by
  rw [pattern, List.length_map, List.length_range]

theorem getElem_pattern (x : Bytes) {n k : ℕ} (hk : k < (pattern x n).length) :
    (pattern x n)[k] = x.getD (k % x.length) 0 := by
  simp only [pattern, List.getElem_map, List.getElem_range]

theorem pattern_nil (n : ℕ) : pattern [] n = List.replicate n 0 :=
  List.eq_replicate_iff.2 ⟨length_pattern [] n, fun b hb => by
    obtain ⟨k, -, rfl⟩ := List.mem_map.1 hb
    rfl⟩

theorem pattern_singleton (b : UInt8) (n : ℕ) : pattern [b] n = List.replicate n b :=
  List.eq_replicate_iff.2 ⟨length_pattern [b] n, fun c hc => by
    obtain ⟨k, -, rfl⟩ := List.mem_map.1 hc
    rw [List.length_singleton, Nat.mod_one, List.getD_cons_zero]⟩

/-! ### The loop -/

section Loop

variable {source : Memory → ℕ → Bytes} {length stop rounds start : ℕ} {m m' : Memory}

theorem fillLoop_ends (source : Memory → ℕ → Bytes) (hlength : 0 < length) (hrounds :
    stop - start ≤ rounds) (m : Memory) :
    ∃ m', fillLoop source length stop rounds start m = .ok m' := by
  induction rounds generalizing start m with
  | zero => exact ⟨m, if_neg (by omega)⟩
  | succ rounds ih =>
    rw [fillLoop]
    split_ifs with hstart
    · exact ih (by omega) _
    · exact ⟨m, rfl⟩

theorem fillLoop_succ (h : fillLoop source length stop (rounds + 1) start m = .ok m') :
    (stop ≤ start ∧ m' = m) ∨ (start < stop ∧
      fillLoop source length stop rounds (start + min length (stop - start))
        (m.write start (source m (min length (stop - start)))) = .ok m') := by
  rw [fillLoop] at h
  split_ifs at h with hstart
  · exact .inr ⟨hstart, h⟩
  · cases h
    exact .inl ⟨not_lt.1 hstart, rfl⟩

theorem fillLoop_zero (h : fillLoop source length stop 0 start m = .ok m') :
    stop ≤ start ∧ m' = m := by
  rw [fillLoop] at h
  split_ifs at h with hstart
  cases h
  exact ⟨not_lt.1 hstart, rfl⟩

theorem fillLoop_outside (hsource : ∀ m, ∀ n ≤ length, (source m n).length = n)
    (h : fillLoop source length stop rounds start m = .ok m') {q : ℕ} (hq : q < start ∨ stop ≤ q) :
    m' q = m q := by
  induction rounds generalizing start m with
  | zero => rw [(fillLoop_zero h).2]
  | succ rounds ih =>
    obtain ⟨-, rfl⟩ | ⟨hstart, h⟩ := fillLoop_succ h
    · rfl
    · rw [ih h (by omega), Memory.write_outside]
      rw [hsource m _ (Nat.min_le_left _ _)]
      omega

theorem fillLoop_pattern {x : Bytes}
    (hsource : ∀ m, ∀ n ≤ x.length, source m n = x.take n)
    (h : fillLoop source x.length stop rounds start m = .ok m') {k : ℕ} (hk : k < stop - start) :
    m' (start + k) = x.getD (k % x.length) 0 := by
  have htake : ∀ m, ∀ n ≤ x.length, (source m n).length = n := fun m n hn => by
    rw [hsource m n hn, List.length_take, Nat.min_eq_left hn]
  induction rounds generalizing start m k with
  | zero =>
    have hstart := (fillLoop_zero h).1
    omega
  | succ rounds ih =>
    obtain ⟨hstart, -⟩ | ⟨hstart, h⟩ := fillLoop_succ h
    · omega
    by_cases hfirst : k < x.length
    · rw [fillLoop_outside htake h (by omega), Memory.write_add
        (by rw [htake m _ (Nat.min_le_left _ _)]; omega), Nat.mod_eq_of_lt hfirst,
        List.getD_eq_getElem _ _ hfirst]
      simp only [hsource m _ (Nat.min_le_left _ _), List.getElem_take]
    · have hmin : min x.length (stop - start) = x.length := by omega
      rw [hmin] at h
      have hrest := ih h (k := k - x.length) (by omega)
      rwa [show start + x.length + (k - x.length) = start + k by omega,
        ← Nat.mod_eq_sub_mod (by omega)] at hrest

theorem fillLoop_overlap {origin : ℕ} (hlength : 0 < length)
    (h : fillLoop (fun m n => m.read origin n) length stop rounds start m = .ok m') {k : ℕ}
    (hk : k < stop - start) : m' (start + k) =
      if start ≤ origin + k % length ∧ origin + k % length < start + length * (k / length) then
        m' (origin + k % length)
      else m (origin + k % length) := by
  have hread : ∀ m : Memory, ∀ n ≤ length, (m.read origin n).length = n :=
    fun m n _ => Memory.length_read m origin n
  induction rounds generalizing start m k with
  | zero =>
    have hstart := (fillLoop_zero h).1
    omega
  | succ rounds ih =>
    obtain ⟨hstart, -⟩ | ⟨hstart, h⟩ := fillLoop_succ h
    · omega
    by_cases hfirst : k < length
    · rw [fillLoop_outside hread h (by omega), Memory.write_add
        (by rw [Memory.length_read]; omega), Memory.getElem_read, Nat.mod_eq_of_lt hfirst,
        Nat.div_eq_of_lt hfirst, if_neg (by omega)]
    have hmin : min length (stop - start) = length := by omega
    rw [hmin] at h
    have hrest := ih h (k := k - length) (by omega)
    rw [show start + length + (k - length) = start +
      k by omega, ← Nat.mod_eq_sub_mod (by omega)]
      at hrest
    have hrounds : length * (k / length) = length + length * ((k - length) / length) := by
      rw [Nat.div_eq_sub_div hlength (by omega), Nat.mul_succ, Nat.add_comm]
    rw [hrest, hrounds]
    generalize hplace : origin + k % length = q
    by_cases hfirstRound : start ≤ q ∧ q < start + length
    · -- The place is overwritten in the first round.
      rw [if_neg (by omega), if_pos (by omega), fillLoop_outside hread h (by omega)]
    · rw [Memory.write_outside (by rw [Memory.length_read]; omega)]
      split_ifs <;> first | rfl | omega

end Loop

/-! ### Patterns -/

variable {x y : Bytes} {n : ℕ}

theorem eq_pattern_iff {l : Bytes} (hlength : l.length = n) :
    l = pattern x n ↔ ∀ k < n, l.getD k 0 = x.getD (k % x.length) 0 := by
  constructor
  · rintro rfl k hk
    rw [List.getD_eq_getElem _ _ (by rwa [length_pattern]), getElem_pattern]
  · intro h
    refine List.ext_getElem (by rw [hlength, length_pattern]) fun k hk hk' => ?_
    rw [getElem_pattern, ← h k (hlength ▸ hk), List.getD_eq_getElem]

theorem pattern_eq_iff (hlength : y.length = x.length) :
    pattern y n = pattern x n ↔ ∀ j < x.length, j < n → y.getD j 0 = x.getD j 0 := by
  rw [eq_pattern_iff (length_pattern y n)]
  have hpattern {k : ℕ} (hk : k < n) : (pattern y n).getD k 0 = y.getD (k % x.length) 0 := by
    rw [List.getD_eq_getElem _ _ (by rwa [length_pattern]), getElem_pattern, hlength]
  constructor
  · intro h j hj hjn
    have hjth := h j hjn
    rwa [hpattern hjn, Nat.mod_eq_of_lt hj] at hjth
  · intro h k hk
    rw [hpattern hk]
    obtain hzero | hpos := Nat.eq_zero_or_pos x.length
    · rw [List.length_eq_zero_iff.1 hzero, List.length_eq_zero_iff.1 (hlength.trans hzero)]
    · exact h _ (Nat.mod_lt k hpos) ((Nat.mod_le k _).trans_lt hk)

theorem overlap_iff {m : Memory} {result : ℕ → UInt8} {origin start : ℕ} (hx : 0 < x.length)
    (hresult : ∀ k < n, result k = if start ≤ origin + k % x.length ∧
          origin + k % x.length < start + x.length * (k / x.length) then
        result (origin + k % x.length - start)
      else m (origin + k % x.length)) :
    (∀ k < n, result k = x.getD (k % x.length) 0) ↔
      (∀ j < x.length, j < n → m (origin + j) = x.getD j 0) ∧
        ∀ k < n, start ≤ origin + k % x.length →
          origin + k % x.length < start + x.length * (k / x.length) →
          x.getD ((origin + k % x.length - start) % x.length) 0 = x.getD (k % x.length) 0 := by
  have hrounds (k : ℕ) : x.length * (k / x.length) ≤ k := Nat.mul_div_le k x.length
  constructor
  · intro h
    refine ⟨fun j hj hjn => ?_, fun k hk hle hlt => ?_⟩
    · have hjth := hresult j hjn
      rw [Nat.mod_eq_of_lt hj, Nat.div_eq_of_lt hj, if_neg (by omega)] at hjth
      rw [← hjth, h j hjn, Nat.mod_eq_of_lt hj]
    · have hkth := hresult k hk
      have hround := hrounds k
      rw [if_pos ⟨hle, hlt⟩, h k hk, h _ (by omega)] at hkth
      exact hkth.symm
  rintro ⟨hfirst, hlater⟩ k
  induction k using Nat.strong_induction_on with
  | h k ih =>
    intro hk
    have hround := hrounds k
    rw [hresult k hk]
    split_ifs with hplace
    · rw [ih _ (by omega) (by omega), hlater k hk hplace.1 hplace.2]
    · exact hfirst _ (Nat.mod_lt k hx) ((Nat.mod_le k _).trans_lt hk)

/-! ### The method -/

variable {h : Heap} {array src : TypedArray} {b d offset stop : ℕ}

/-- A range of a block is written, and it is known when this is with a pattern. -/
def Fills (h : Heap) (d start n : ℕ) (x : Bytes) (good : Prop) (m : Memory) : Prop :=
  ∃ l : Bytes, l.length = n ∧ m = (h.block d).write start l ∧ (l = pattern x n ↔ good)

theorem fills_pattern {good : Prop} (hgood : good) (h : Heap) (d start n : ℕ) (x : Bytes) :
    Fills h d start n x good ((h.block d).write start (pattern x n)) :=
  ⟨_, length_pattern x n, rfl, iff_of_true rfl hgood⟩

theorem fillLoop_eq_write {source : Memory → ℕ → Bytes} {length rounds start : ℕ} {m m' : Memory}
    (hsource : ∀ m, ∀ n ≤ length, (source m n).length = n) (hstart : start ≤ stop)
    (hloop : fillLoop source length stop rounds start m = .ok m') :
    m' = m.write start (m'.read start (stop - start)) :=
  Memory.eq_write_read fun q hq => fillLoop_outside hsource hloop (by omega)

theorem fillLoop_eq_pattern (source : Memory → ℕ → Bytes) {start : ℕ} (hx : 0 < x.length)
    (hsource : ∀ m, ∀ n ≤ x.length, source m n = x.take n) (hstart : start ≤ stop) (m : Memory) :
    fillLoop source x.length stop (stop - start) start m =
      .ok (m.write start (pattern x (stop - start))) := by
  obtain ⟨m', hloop⟩ := fillLoop_ends source hx (Nat.le_refl (stop - start)) m
  have hlength : ∀ m, ∀ n ≤ x.length, (source m n).length = n := fun m n hn => by
    rw [hsource m n hn, List.length_take, Nat.min_eq_left hn]
  rw [hloop, fillLoop_eq_write hlength hstart hloop]
  congr 2
  refine (eq_pattern_iff (Memory.length_read _ _ _)).2 fun k hk => ?_
  rw [Memory.getD_read hk, fillLoop_pattern hsource hloop hk]

theorem njsBufferFillString_eq (value : StringProp) (m : Memory) (encoding : Encoding) {start : ℕ}
    (hstart : start ≤ stop) : njsBufferFillString value m encoding start stop =
      .ok (m.write start (pattern (njsBufferDecodeString value encoding) (stop - start))) := by
  rw [njsBufferFillString]
  split_ifs with hempty
  · rw [List.length_eq_zero_iff.1 hempty, pattern_nil]
  · exact fillLoop_eq_pattern _ (Nat.pos_of_ne_zero hempty) (fun _ _ _ => rfl) hstart m

theorem byte_and (n : ℕ) : UInt8.ofNat (n &&& 0xff) = UInt8.ofNat n := by
  rw [show (0xff : ℕ) = 2 ^ 8 - 1 from rfl, Nat.and_two_pow_sub_one_eq_mod]
  exact UInt8.ofNat_mod_size

theorem fills_typedArray (howns : h.Owns array.buffer d)
    (hstart : array.start = array.offset) (hoffset : offset ≤ stop)
    (hsrc : (h.buffer src.buffer).data ≠ none) (hx : x.length = src.byteLength)
    (hplaces : ∀ j < x.length, h.get src.buffer (src.offset + j) ≠ none) :
    ∃ m, njsBufferFillTypedArray src h d (array.offset + offset) (array.offset + stop) = .ok m ∧
      Fills h d (array.offset + offset) (stop - offset) x
        ((FillValue.typedArray src).Repeats h array offset stop x) m := by
  obtain ⟨e, he⟩ := Option.ne_none_iff_exists'.1 hsrc
  have hplace : ∀ j < x.length,
      h.get src.buffer (src.offset + j) = some (h.block e (src.offset + j)) := by
    intro j hj
    obtain ⟨v, hv⟩ := Option.ne_none_iff_exists'.1 (hplaces j hj)
    rw [hv, Heap.get_eq_some he hv]
  have hfirst : (∀ j < x.length, j < stop - offset →
      h.get src.buffer (src.offset + j) = some (x.getD j 0)) ↔
      ∀ j < x.length, j < stop - offset → h.block e (src.offset + j) = x.getD j 0 :=
    forall₂_congr fun j hj => by rw [hplace j hj, Option.some_inj]
  have hn : array.offset + stop - (array.offset + offset) = stop - offset := by omega
  have hle : array.offset + offset ≤ array.offset + stop := by omega
  rw [njsBufferFillTypedArray, he]
  dsimp only
  rw [hn, ← hx, FillValue.Repeats, hfirst, hstart]
  split_ifs with hempty hsame
  · rw [List.length_eq_zero_iff.1 hempty, ← pattern_nil]
    refine ⟨_, rfl, fills_pattern ?_ h d _ _ _⟩
    simp only [List.length_nil, Nat.not_lt_zero, false_imp_iff, implies_true, true_and,
      Nat.zero_mul, Nat.add_zero]
    intro _ k _ hge hlt
    omega
  · -- The range is in the array buffer of the source.
    subst hsame
    have hbuffer : src.buffer = array.buffer := by
      by_contra hne
      exact howns.only src.buffer hne he
    have hpos := Nat.pos_of_ne_zero hempty
    have hread : ∀ m : Memory, ∀ n ≤ x.length, (m.read src.offset n).length = n :=
      fun m n _ => Memory.length_read m src.offset n
    obtain ⟨m', hloop⟩ := fillLoop_ends (fun m n => m.read src.offset n) hpos
      (show array.offset + stop - (array.offset + offset) ≤ stop - offset by omega) (h.block e)
    have hwrite := fillLoop_eq_write hread hle hloop
    rw [hn] at hwrite
    refine ⟨m', hloop, _, Memory.length_read _ _ _, hwrite, ?_⟩
    rw [eq_pattern_iff (Memory.length_read _ _ _)]
    simp only [hbuffer, true_imp_iff]
    refine Iff.trans (forall₂_congr fun k hk => by rw [Memory.getD_read hk]) (overlap_iff hpos ?_)
    intro k hk
    have hkth := fillLoop_overlap hpos hloop (k := k) (by omega)
    rw [hkth]
    split_ifs with hback
    · rw [show array.offset + offset + (src.offset + k % x.length - (array.offset + offset)) =
        src.offset + k % x.length by omega]
    · rfl
  · -- The source stays as it is.
    have hne : src.buffer ≠ array.buffer := fun hbuffer =>
      hsame (Option.some.inj (he.symm.trans (hbuffer ▸ howns.data)))
    have hlength : ((h.block e).read src.offset x.length).length = x.length :=
      Memory.length_read _ _ _
    have hloop := fillLoop_eq_pattern (fun _ n => (h.block e).read src.offset n)
      (x := (h.block e).read src.offset x.length) (by rw [hlength]; omega)
      (fun _ n hn => by
        rw [hlength] at hn
        have htake := Memory.take_drop_read (m := h.block e) (p := src.offset) (i := 0)
          (show 0 + n ≤ x.length by omega)
        rw [List.drop_zero, Nat.add_zero] at htake
        exact htake.symm) hle (h.block d)
    rw [hlength, hn] at hloop
    refine ⟨_, hloop, _, length_pattern _ _, rfl, ?_⟩
    rw [pattern_eq_iff hlength]
    simp only [hne, false_imp_iff, and_true]
    exact forall₂_congr fun j hj => by rw [Memory.getD_read hj]

theorem places_typedArray {h' : Heap} (hwithin : src.Within h)
    (hsrc : (h.buffer src.buffer).data ≠ none) (hsame : h.Same h') :
    (src.bytes h).length = src.byteLength ∧
      ∀ j < (src.bytes h).length, h'.get src.buffer (src.offset + j) ≠ none := by
  obtain ⟨e, he⟩ := Option.ne_none_iff_exists'.1 hsrc
  have hlength : (src.bytes h).length = src.byteLength := by
    rw [TypedArray.bytes, he]
    exact Memory.length_read _ _ _
  refine ⟨hlength, fun j hj => ?_⟩
  have hfits := hwithin.fits hsrc
  have hsize : 1 ≤ njsTypedArrayElementSize src.type := by
    cases src.type <;> decide
  have hle := Nat.le_mul_of_pos_right src.offset hsize
  rw [hsame, Heap.get_of_data he, if_pos (by omega)]
  exact Option.some_ne_none _

theorem fills_fillRange {value : FillValue} {encode : Argument} {h' : Heap} (hsame : h.Same h')
    (hdetached : ∀ c, (h'.buffer c).data = none ↔ (h.buffer c).data = none)
    (howns : h'.Owns array.buffer d) (hstart : array.start = array.offset)
    (hoffset : offset ≤ stop) (hpattern : value.IsPattern h encode x) :
    ∃ m, fillRange h' d value encode (array.offset + offset) (array.offset + stop) = .ok m ∧
      Fills h' d (array.offset + offset) (stop - offset) x
        (value.Repeats h' array offset stop x) m := by
  have hn : array.offset + stop - (array.offset + offset) = stop - offset := by omega
  cases value with
  | string s =>
    obtain ⟨encoding, hencoding, rfl⟩ := hpattern
    rw [fillRange, hencoding]
    dsimp only
    rw [njsBufferFillString_eq s _ encoding (by omega), hn]
    exact ⟨_, rfl, fills_pattern trivial h' d _ _ _⟩
  | typedArray src =>
    obtain ⟨hwithin, hsrc, rfl⟩ := hpattern
    obtain ⟨hlength, hplaces⟩ := places_typedArray hwithin hsrc hsame
    exact fills_typedArray howns hstart hoffset (fun hnone => hsrc ((hdetached _).1 hnone))
      hlength hplaces
  | number n =>
    rw [fillRange, hn, byte_and, ← pattern_singleton, ← hpattern]
    exact ⟨_, rfl, fills_pattern trivial h' d _ _ _⟩

theorem repeats_congr {h' : Heap} (hsame : h.Same h') (value : FillValue) :
    value.Repeats h' array offset stop x ↔ value.Repeats h array offset stop x := by
  rcases value with _ | src | _
  · exact Iff.rfl
  · simp only [FillValue.Repeats, hsame src.buffer]
  · exact Iff.rfl

theorem repeats_empty (value : FillValue) (hoffset : stop ≤ offset) :
    value.Repeats h array offset stop x := by
  rcases value with _ | src | _
  · trivial
  · exact ⟨fun j _ hj => absurd hj (by omega), fun _ k hk => absurd hk (by omega)⟩
  · trivial

theorem fillArguments_integers {overflow : BitVec 64} (value : FillValue) (encode : Argument)
    (hoffset : (offset : ℤ) ≤ uint32Max) (hstop : (stop : ℤ) ≤ uint32Max) :
    fillArguments overflow array value (.number (.integer offset)) (.number (.integer stop))
      encode = .ok (offset, stop, encode) := by
  have hmax : uint32Max = 0xffffffff := rfl
  have hindex {n : ℕ} (hn : (n : ℤ) ≤ uint32Max) :
      njsValueToIndex overflow (Argument.number (.integer n)).integer = .ok n := by
    rw [Argument.integer, njsValueToIndex, Arrays.NjsArray.njsNumberToInteger,
      if_neg (by omega), if_neg (by omega), if_neg (by omega), if_neg (by omega)]
    rfl
  rcases value with _ | _ | _ <;> simp only [fillArguments, hindex hoffset, hindex hstop] <;> rfl

def twoBytes : TypedArray := ⟨0, 2, 2, .uint8Array⟩

end Njs.Buffer
