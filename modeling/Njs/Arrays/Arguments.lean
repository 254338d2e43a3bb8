import Njs.Arrays.Methods

/-!
# Arguments that are numbers

An argument is made a number before a method does its work, and this may call the script.
-/

namespace Njs.Arrays

open Simulation NjsArray

variable {V X : Type}

/-- An argument, and what the script does to the array while the argument is made a number. -/
structure Argument (V X : Type) where
  isUndefined : Bool
  fast : NjsArray V → NjsArray V
  elements : Elements V → Elements V
  represents : ∀ a t, Represents a t → Represents (fast a) (elements t)
  number : Except X IntegerOrInfinity

/-- The arguments of `splice`. -/
inductive SpliceArguments (V X : Type)
  | none
  | start (start : Argument V X)
  | delete (start delete : Argument V X) (items : List V)

/-! ### The language -/

namespace Elements

/-- `ToIntegerOrInfinity`. -/
def toIntegerOrInfinity (x : Argument V X) : Prog (Elements V) (Error X) IntegerOrInfinity := do
  modify x.elements
  match x.number with
  | .ok n => return n
  | .error e => throw (.script e)

def deleteCount (limit : ℕ) : IntegerOrInfinity → ℕ
  | .negInfinity => 0
  | .infinity => limit
  | .integer n => (min (max n 0) limit).toNat

/-- `Array.prototype.splice`. -/
def splice (lax : Lax) (args : SpliceArguments V X) : Prog (Elements V) (Error X) (Result V) := do
  let length := (← get).length
  match args with
  | .none => spliceAt lax length 0 0 []
  | .start start => do
    let start := relative length (← toIntegerOrInfinity start)
    spliceAt lax length start (length - start) []
  | .delete start delete items => do
    let start := relative length (← toIntegerOrInfinity start)
    let delete := deleteCount (length - start) (← toIntegerOrInfinity delete)
    spliceAt lax length start delete items

/-- `Array.prototype.copyWithin`. -/
def copyWithin (lax : Lax) (target start stop : Argument V X) :
    Prog (Elements V) (Error X) (Result V) := do
  let length := (← get).length
  let target := relative length (← toIntegerOrInfinity target)
  let start := relative length (← toIntegerOrInfinity start)
  if stop.isUndefined then copyWithinAt lax length target start length
  else
    let stop := relative length (← toIntegerOrInfinity stop)
    copyWithinAt lax length target start stop

end Elements

/-! ### The code -/

namespace NjsArray

variable (junk : NjsArray V → ℕ → Option V) (overflow : BitVec 64)

/-- `njs_number_to_integer`. The comparison with `INT64_MAX` as a double lets `2^63` through to a
cast that cannot hold it. -/
def njsNumberToInteger : IntegerOrInfinity → ℤ
  | .negInfinity => -2 ^ 63
  | .infinity => 2 ^ 63 - 1
  | .integer n =>
    if n < -2 ^ 63 then -2 ^ 63
    else if 2 ^ 63 < n then 2 ^ 63 - 1
    else if n = 2 ^ 63 then overflow.toInt
    else n

def njsValueToInteger (x : Argument V X) : Fast V X ℤ := do
  modify x.fast
  match x.number with
  | .ok n => return njsNumberToInteger overflow n
  | .error e => throw (.error (.script e))

def relativePosition (length n : ℤ) : ℤ := if n < 0 then max (length + n) 0 else min n length

def njsArrayPrototypeSplice (args : SpliceArguments V X) : Fast V X (Result V) := do
  let length : ℤ := (← get).length
  match args with
  | .none => spliceAt junk length (relativePosition length 0) 0 []
  | .start start => do
    let start := relativePosition length (← njsValueToInteger overflow start)
    spliceAt junk length start (length - start) []
  | .delete start delete items => do
    let start := relativePosition length (← njsValueToInteger overflow start)
    let delete := min (max (← njsValueToInteger overflow delete) 0) (length - start)
    spliceAt junk length start delete items

def njsArrayPrototypeCopyWithin (target start stop : Argument V X) : Fast V X (Result V) := do
  let length : ℤ := (← get).length
  let target := relativePosition length (← njsValueToInteger overflow target)
  let start := relativePosition length (← njsValueToInteger overflow start)
  if stop.isUndefined then
    copyWithinAt junk length target start (relativePosition length length)
  else
    let stop := relativePosition length (← njsValueToInteger overflow stop)
    copyWithinAt junk length target start stop

end NjsArray

/-! ### Integers -/

variable {junk : NjsArray V → ℕ → Option V} {overflow : BitVec 64} {a : NjsArray V}

/-- The number is not the one that the cast cannot hold. -/
def Argument.Fits (x : Argument V X) : Prop := x.number ≠ .ok (.integer (2 ^ 63))

theorem relativePosition_eq {length : ℕ} {n : IntegerOrInfinity} (hlength : length ≤ 2 ^ 31)
    (hn : n ≠ .integer (2 ^ 63)) :
    relativePosition length (njsNumberToInteger overflow n) = relative length n := by
  cases n with
  | negInfinity =>
    rw [njsNumberToInteger, relativePosition, if_pos (by omega), relative]
    omega
  | infinity =>
    rw [njsNumberToInteger, relativePosition, if_neg (by omega), relative]
    omega
  | integer n =>
    have hn : n ≠ 2 ^ 63 := fun h => hn (congrArg _ h)
    rw [njsNumberToInteger, relative, if_neg hn, relativePosition]
    split_ifs <;> omega

theorem deleteCount_eq {limit : ℕ} {n : IntegerOrInfinity} (hlimit : limit ≤ 2 ^ 31)
    (hn : n ≠ .integer (2 ^ 63)) :
    min (max (njsNumberToInteger overflow n) 0) limit = Elements.deleteCount limit n := by
  cases n with
  | negInfinity =>
    rw [njsNumberToInteger, Elements.deleteCount]
    omega
  | infinity =>
    rw [njsNumberToInteger, Elements.deleteCount]
    omega
  | integer n =>
    have hn : n ≠ 2 ^ 63 := fun h => hn (congrArg _ h)
    rw [njsNumberToInteger, Elements.deleteCount, if_neg hn]
    split_ifs <;> omega

theorem relative_le (length : ℕ) (n : IntegerOrInfinity) : relative length n ≤ length := by
  cases n with
  | negInfinity => exact Nat.zero_le _
  | infinity => exact Nat.le_refl _
  | integer n =>
    rw [relative]
    split_ifs <;> omega

theorem deleteCount_le (limit : ℕ) (n : IntegerOrInfinity) :
    Elements.deleteCount limit n ≤ limit := by
  cases n with
  | negInfinity => exact Nat.zero_le _
  | infinity => exact Nat.le_refl _
  | integer n =>
    rw [Elements.deleteCount]
    omega

theorem simulates_toInteger (ha : a.InBounds) {x : Argument V X} (hx : x.Fits) :
    Simulates (ε := Error X) Represents
      (fun n m b t => n = njsNumberToInteger overflow m ∧ m ≠ .integer (2 ^ 63) ∧ Represents b t)
      (njsValueToInteger overflow x) (Elements.toIntegerOrInfinity x) a a.elements := by
  have hscript := x.represents a a.elements ⟨ha, rfl⟩
  rw [njsValueToInteger, Elements.toIntegerOrInfinity]
  refine Simulates.bind_left (exec_modify _ a) (Simulates.bind_right (exec_modify _ _) ?_)
  rcases hnumber : x.number with e | n
  · exact simulates_throw hscript
  · exact simulates_pure ⟨rfl, fun h => hx (hnumber.trans (congrArg _ h)), hscript⟩

def SpliceArguments.Fits : SpliceArguments V X → Prop
  | .none => True
  | .start x => x.Fits
  | .delete x y _ => x.Fits ∧ y.Fits

theorem simulates_splice (ha : a.InBounds) {args : SpliceArguments V X} (hargs : args.Fits) :
    Simulates Represents Same (njsArrayPrototypeSplice junk overflow args)
      (Elements.splice moves args) a a.elements := by
  have hstart := ha.start
  have hstop := ha.stop
  have hsize := ha.size
  have hlength : a.length ≤ 2 ^ 31 := by omega
  rw [njsArrayPrototypeSplice, Elements.splice]
  refine Simulates.get_left (Simulates.get_right ?_)
  cases args with
  | none =>
    have hzero : relativePosition a.length 0 = (0 : ℕ) := by
      rw [relativePosition, if_neg (by omega)]
      omega
    dsimp only
    rw [hzero]
    exact simulates_spliceAt junk ha [] (Nat.zero_le a.length)
  | start start =>
    refine (simulates_toInteger ha hargs).bind ?_
    rintro _ n b _ ⟨rfl, hn, hb, rfl⟩
    have hle := relative_le a.length n
    have hdelete : (a.length : ℤ) - relative a.length n = (a.length - relative a.length n : ℕ) := by
      omega
    dsimp only
    rw [relativePosition_eq hlength hn, hdelete]
    exact simulates_spliceAt junk hb [] (by omega)
  | delete start delete items =>
    refine (simulates_toInteger ha hargs.1).bind ?_
    rintro _ n b _ ⟨rfl, hn, hb, rfl⟩
    refine (simulates_toInteger hb hargs.2).bind ?_
    rintro _ m b _ ⟨rfl, hm, hb, rfl⟩
    have hle := relative_le a.length n
    have hcount := deleteCount_le (a.length - relative a.length n) m
    have hlimit : (a.length : ℤ) - relative a.length n = (a.length - relative a.length n : ℕ) := by
      omega
    dsimp only
    rw [relativePosition_eq hlength hn, hlimit, deleteCount_eq (by omega) hm]
    exact simulates_spliceAt junk hb items (by omega)

theorem simulates_prototypeCopyWithin (ha : a.InBounds) {target start stop : Argument V X}
    (htarget : target.Fits) (hstart : start.Fits) (hstop : stop.Fits) :
    Simulates Represents Same (njsArrayPrototypeCopyWithin junk overflow target start stop)
      (Elements.copyWithin moves target start stop) a a.elements := by
  have hlength : a.length ≤ 2 ^ 31 := by
    have := ha.start
    have := ha.stop
    have := ha.size
    omega
  rw [njsArrayPrototypeCopyWithin, Elements.copyWithin]
  refine Simulates.get_left (Simulates.get_right ?_)
  refine (simulates_toInteger ha htarget).bind ?_
  rintro _ n b _ ⟨rfl, hn, hb, rfl⟩
  refine (simulates_toInteger hb hstart).bind ?_
  rintro _ m b _ ⟨rfl, hm, hb, rfl⟩
  dsimp only
  rw [relativePosition_eq hlength hn, relativePosition_eq hlength hm, elements_length]
  split_ifs with hundefined
  · have hend : relativePosition a.length a.length = a.length := by
      rw [relativePosition, if_neg (by omega), Int.min_self]
    rw [hend]
    exact simulates_copyWithinAt junk hb _ _ _ _
  · refine (simulates_toInteger hb hstop).bind ?_
    rintro _ k b _ ⟨rfl, hk, hb, rfl⟩
    rw [relativePosition_eq hlength hk]
    exact simulates_copyWithinAt junk hb _ _ _ _

/-! ### The number that does not fit -/

/-- The argument, with what the cast of `2^63` gives instead of it. -/
def Argument.replaced (overflow : BitVec 64) (x : Argument V X) : Argument V X :=
  { x with
    number := x.number.map fun n =>
      if n = .integer (2 ^ 63) then .integer overflow.toInt else n }

theorem Argument.replaced_fits (x : Argument V X) : (x.replaced overflow).Fits := by
  have hlt := overflow.toInt_lt
  rw [Fits, replaced]
  rcases x.number with e | n
  · exact nofun
  show Except.ok (if n = .integer (2 ^ 63) then .integer overflow.toInt else n) ≠ _
  split_ifs with h
  · intro heq
    injection heq with heq
    injection heq with heq
    omega
  · intro heq
    injection heq with heq
    exact h heq

theorem njsNumberToInteger_replaced (n : IntegerOrInfinity) :
    njsNumberToInteger overflow (if n = .integer (2 ^ 63) then .integer overflow.toInt else n) =
      njsNumberToInteger overflow n := by
  have hlt := overflow.toInt_lt
  have hle := overflow.le_toInt
  split_ifs with h
  · rw [h, njsNumberToInteger, njsNumberToInteger, if_neg (by omega), if_neg (by omega),
      if_neg (by omega), if_neg (by omega), if_neg (by omega), if_pos rfl]
  · rfl

theorem njsValueToInteger_replaced (x : Argument V X) :
    njsValueToInteger overflow (x.replaced overflow) = njsValueToInteger overflow x := by
  rw [njsValueToInteger, njsValueToInteger, Argument.replaced]
  rcases x.number with e | n
  · rfl
  · simp only [Except.map, njsNumberToInteger_replaced]

end Njs.Arrays

/-!
## Arrays that are not extensible

The language does not add elements to an array that is not extensible. The code does, where it does
not look.
-/

namespace Njs.Arrays

open Simulation

variable {V X : Type}

/-- An element is refused that is added without a look at whether the array is extensible. -/
def Refuses (lax : Elements.Lax) (e : Error X) (t : Elements V) : Prop :=
  ∃ i, e = .notExtensible i ∧ lax i t.length = true

namespace Elements

variable (lax : Lax) {t : Elements V}

theorem agreesUnless_put (i : ℕ) (v : V) :
    AgreesUnless (Refuses (X := X) lax) (put strict i v) (put lax i v) t := by
  rw [AgreesUnless, put, put, exec_bind_ok (exec_get t), exec_bind_ok (exec_get t)]
  by_cases hadd : (t.element i).isNone ∧ t.extensible = false
  · rw [if_pos ⟨hadd.1, hadd.2, rfl⟩]
    by_cases hlax : lax i t.length = true
    · exact .inr ⟨_, t, exec_throw _ t, i, rfl, hlax⟩
    · rw [if_pos ⟨hadd.1, hadd.2, Bool.not_eq_true _ ▸ hlax⟩]
      exact .inl rfl
  · have hadded (lax : Lax) :
        ¬((t.element i).isNone ∧ t.extensible = false ∧ lax i t.length = false) :=
      fun h => hadd ⟨h.1, h.2.1⟩
    rw [if_neg (hadded strict), if_neg (hadded lax)]
    exact .inl rfl

theorem agreesUnless_move (source target : ℕ) :
    AgreesUnless (Refuses (X := X) lax) (move strict source target) (move lax source target) t := by
  rw [move, move]
  refine (agreesUnless_refl _ t).bind fun c t => ?_
  cases c with
  | some v => exact agreesUnless_put lax target v
  | none => exact agreesUnless_refl _ t

theorem agreesUnless_moveAll (source target count : ℕ) (forward : Bool) :
    AgreesUnless (Refuses (X := X) lax) (moveAll strict source target count forward)
      (moveAll lax source target count forward) t := by
  refine agreesUnless_forM (fun i t => ?_) _
  split_ifs
  · exact agreesUnless_move lax _ _
  · exact agreesUnless_move lax _ _

theorem agreesUnless_putAll (start : ℕ) (vs : List V) :
    AgreesUnless (Refuses (X := X) lax) (putAll strict start vs) (putAll lax start vs) t :=
  agreesUnless_forM (fun p _ => agreesUnless_put lax (start + p.2) p.1) _

theorem agreesUnless_push (vs : List V) :
    AgreesUnless (Refuses (X := X) lax) (push strict vs) (push lax vs) t := by
  rw [push, push]
  refine (agreesUnless_refl _ t).bind fun t₁ t => ?_
  dsimp only
  split_ifs
  · exact agreesUnless_refl _ t
  · exact (agreesUnless_putAll lax t₁.length vs).bind fun _ t => agreesUnless_refl _ t

theorem agreesUnless_shift : AgreesUnless (Refuses (X := X) lax) (shift strict) (shift lax) t := by
  rw [shift, shift]
  refine (agreesUnless_refl _ t).bind fun t₁ t => ?_
  dsimp only
  split_ifs
  · exact agreesUnless_refl _ t
  · refine (agreesUnless_refl _ t).bind fun v t => ?_
    exact (agreesUnless_moveAll lax 1 0 _ true).bind fun _ t => agreesUnless_refl _ t

theorem agreesUnless_unshift (vs : List V) :
    AgreesUnless (Refuses (X := X) lax) (unshift strict vs) (unshift lax vs) t := by
  rw [unshift, unshift]
  refine (agreesUnless_refl _ t).bind fun t₁ t => ?_
  dsimp only
  split_ifs
  · exact agreesUnless_refl _ t
  · refine (agreesUnless_moveAll lax 0 vs.length _ false).bind fun _ t => ?_
    exact (agreesUnless_putAll lax 0 vs).bind fun _ t => agreesUnless_refl _ t
  · exact agreesUnless_refl _ t

theorem agreesUnless_spliceAt (length start delete : ℕ) (items : List V) :
    AgreesUnless (Refuses (X := X) lax) (spliceAt strict length start delete items)
      (spliceAt lax length start delete items) t := by
  rw [spliceAt, spliceAt]
  dsimp only
  by_cases hmax : maxLength < length + items.length - delete
  · rw [if_pos hmax, if_pos hmax]
    exact agreesUnless_refl _ t
  rw [if_neg hmax, if_neg hmax]
  refine (agreesUnless_refl _ t).bind fun deleted t => ?_
  split_ifs
  · refine (agreesUnless_moveAll lax _ _ _ _).bind fun _ t => ?_
    refine (agreesUnless_refl _ t).bind fun _ t => ?_
    exact (agreesUnless_putAll lax start items).bind fun _ t => agreesUnless_refl _ t
  · exact (agreesUnless_putAll lax start items).bind fun _ t => agreesUnless_refl _ t

theorem agreesUnless_copyWithinAt (length target start stop : ℕ) :
    AgreesUnless (Refuses (X := X) lax) (copyWithinAt strict length target start stop)
      (copyWithinAt lax length target start stop) t :=
  (agreesUnless_moveAll lax _ _ _ _).bind fun _ t => agreesUnless_refl _ t

theorem agreesUnless_splice (args : SpliceArguments V X) :
    AgreesUnless (Refuses (X := X) lax) (splice strict args) (splice lax args) t := by
  rw [splice, splice]
  refine (agreesUnless_refl _ t).bind fun t₁ t => ?_
  cases args with
  | none => exact agreesUnless_spliceAt lax _ _ _ _
  | start x =>
    refine (agreesUnless_refl _ t).bind fun n t => ?_
    exact agreesUnless_spliceAt lax _ _ _ _
  | delete x y items =>
    refine (agreesUnless_refl _ t).bind fun n t => (agreesUnless_refl _ t).bind fun m t => ?_
    exact agreesUnless_spliceAt lax _ _ _ _

theorem agreesUnless_copyWithin (target start stop : Argument V X) :
    AgreesUnless (Refuses (X := X) lax) (copyWithin strict target start stop)
      (copyWithin lax target start stop) t := by
  rw [copyWithin, copyWithin]
  refine (agreesUnless_refl _ t).bind fun t₁ t => (agreesUnless_refl _ t).bind fun n t => ?_
  refine (agreesUnless_refl _ t).bind fun m t => ?_
  dsimp only
  split_ifs
  · exact agreesUnless_copyWithinAt lax _ _ _ _
  · refine (agreesUnless_refl _ t).bind fun k t => ?_
    exact agreesUnless_copyWithinAt lax _ _ _ _

end Elements

end Njs.Arrays
