import Mathlib.Algebra.Group.Nat.Defs
import Njs.Lib.IndexChain

/-!
# The flat hash

The hash table of `njs_flathsh.c`: an array of cells with the indices of the first elements of
lists, a descriptor, and an array of elements in the order of their insertion, linked through
`next_elt`. The three lie in one chunk of memory, which is reallocated when the elements do not
fit any more and when many of them are deleted.

The fields are numbers, cut off where they are stored to the widths that the source gives them.
An element past `elts_count` holds whatever the memory holds. The part of an element's value
that the caller's `test` function looks at is `key`; `test` is equality of keys. A call makes one
allocation request at most, and `mem` tells whether it is served.
-/

namespace Njs.FlatHash

/-- `NJS_FREE_FLATHSH_ELEMENT` and `NJS_PROPERTY`. The callers set other types too, none of them
free. -/
inductive EltType
  | free
  | property
  deriving DecidableEq

/-- `njs_flathsh_elt_t`. -/
structure Elt (κ ν : Type) where
  /-- 26 bits. -/
  nextElt : ℕ
  type : EltType
  keyHash : UInt32
  key : κ
  value : ν

/-- A chunk: the cells, `njs_flathsh_descr_t` and the elements. -/
structure Descr (κ ν : Type) where
  cells : ℕ → ℕ
  hashMask : ℕ
  eltsSize : ℕ
  eltsCount : ℕ
  eltsDeletedCount : ℕ
  elts : ℕ → Elt κ ν

/-- `njs_flathsh_t`: no chunk while the hash is empty. -/
abbrev Flathsh (κ ν : Type) : Type := Option (Descr κ ν)

/-- `njs_flathsh_query_t`. -/
structure Query (κ : Type) where
  keyHash : UInt32
  key : κ
  replace : Bool

/-- `NJS_OK`, `NJS_DECLINED` and `NJS_ERROR`. -/
inductive Rc
  | ok
  | declined
  | error
  deriving DecidableEq

variable {κ ν : Type}

def cellNum (keyHash : UInt32) (hashMask : ℕ) : ℕ := keyHash.toNat &&& hashMask

/-! ### Reallocation -/

/-- `njs_flathsh_alloc`; `elts` is what the memory holds. -/
def njsFlathshAlloc (hashSize eltsSize : ℕ) (elts : ℕ → Elt κ ν) : Descr κ ν where
  cells _ := 0
  hashMask := (hashSize - 1) % 2 ^ 32
  eltsSize := eltsSize % 2 ^ 32
  eltsCount := 0
  eltsDeletedCount := 0
  elts := elts

def njsFlathshNew (elts : ℕ → Elt κ ν) : Descr κ ν := njsFlathshAlloc 4 2 elts

/-- `while (new_hash_size < new_elts_size) new_hash_size = 2 * new_hash_size`, in at most so many
rounds. -/
def growHashSize (newEltsSize : ℕ) : ℕ → ℕ → ℕ
  | 0, newHashSize => newHashSize
  | rounds + 1, newHashSize =>
    if newHashSize < newEltsSize then growHashSize newEltsSize rounds (2 * newHashSize)
    else newHashSize

/-- `while ((new_hash_size / 2) >= new_elts_size) new_hash_size = new_hash_size / 2`, in at most so
many rounds. -/
def shrinkHashSize (newEltsSize : ℕ) : ℕ → ℕ → ℕ
  | 0, newHashSize => newHashSize
  | rounds + 1, newHashSize =>
    if newHashSize / 2 ≥ newEltsSize then shrinkHashSize newEltsSize rounds (newHashSize / 2)
    else newHashSize

/-- The loop of `njs_expand_elts` after so many rounds: the cells and the elements. -/
def relink (hashMask : ℕ) (elts : ℕ → Elt κ ν) : ℕ → (ℕ → ℕ) × (ℕ → Elt κ ν)
  | 0 => (fun _ => 0, elts)
  | i + 1 =>
    let (cells, elts) := relink hashMask elts i
    if (elts i).type ≠ .free then
      let cell := cellNum (elts i).keyHash hashMask
      (Function.update cells cell (i + 1),
        Function.update elts i { elts i with nextElt := cells cell % 2 ^ 26 })
    else (cells, elts)

def njsExpandElts (mem : Bool) (h : Descr κ ν) : Option (Descr κ ν) :=
  let newEltsSize := max (h.eltsCount + 1) (h.eltsSize * 3 / 2)
  let newHashSize := growHashSize newEltsSize 64 (h.hashMask + 1)
  if newHashSize > 0xffffffff then none
  else if mem = false then none
  else if newHashSize ≠ h.hashMask + 1 then
    let newHashMask := newHashSize - 1
    let (cells, elts) := relink newHashMask h.elts h.eltsCount
    some { h with cells, elts, hashMask := newHashMask, eltsSize := newEltsSize % 2 ^ 32 }
  else some { h with eltsSize := newEltsSize % 2 ^ 32 }

/-- The loop of `njs_shrink_elts` after so many rounds: the cells, the elements and their number.
The elements are copied from `src` over `elts`, which is what the new memory holds. -/
def compact (hashMask : ℕ) (src elts : ℕ → Elt κ ν) : ℕ → (ℕ → ℕ) × (ℕ → Elt κ ν) × ℕ
  | 0 => (fun _ => 0, elts, 0)
  | i + 1 =>
    let (cells, elts, j) := compact hashMask src elts i
    if (src i).type ≠ .free then
      let cell := cellNum (src i).keyHash hashMask
      (Function.update cells cell (j + 1),
        Function.update elts j { src i with nextElt := cells cell % 2 ^ 26 }, j + 1)
    else (cells, elts, j)

/-- `njs_shrink_elts`; the new memory holds what the old one holds. -/
def njsShrinkElts (mem : Bool) (h : Descr κ ν) : Option (Descr κ ν) :=
  let newEltsSize := max 2 (h.eltsCount - h.eltsDeletedCount)
  let newHashSize := shrinkHashSize newEltsSize 32 (h.hashMask + 1)
  let newHashMask := newHashSize - 1
  if mem = false then none
  else
    let (cells, elts, j) := compact newHashMask h.elts h.elts h.eltsCount
    some
      { cells, elts, hashMask := newHashMask, eltsSize := newEltsSize, eltsDeletedCount := 0,
        eltsCount := j }

/-! ### The operations -/

/-- The loop that follows the list of a cell up to an element that satisfies `p`: the element
before it, if there is one, and the element. A list has no more elements than there are. -/
def searchLoop (h : Descr κ ν) (p : Elt κ ν → Bool) : ℕ → Option ℕ → ℕ → Option (Option ℕ × ℕ)
  | 0, _, _ => none
  | _ + 1, _, 0 => none
  | rounds + 1, eltPrev, i + 1 =>
    if p (h.elts i) then some (eltPrev, i)
    else searchLoop h p rounds (some i) (h.elts i).nextElt

def search (h : Descr κ ν) (fhq : Query κ) (p : Elt κ ν → Bool) : Option (Option ℕ × ℕ) :=
  searchLoop h p (h.eltsCount + 1) none (h.cells (cellNum fhq.keyHash h.hashMask))

/-- `elt->key_hash == fhq->key_hash && fhq->proto->test(fhq, elt->value) == NJS_OK`. -/
def Query.test [DecidableEq κ] (fhq : Query κ) (elt : Elt κ ν) : Bool :=
  elt.keyHash = fhq.keyHash && elt.key = fhq.key

/-- `elt->key_hash == fhq->key_hash`. -/
def Query.testHash (fhq : Query κ) (elt : Elt κ ν) : Bool :=
  elt.keyHash = fhq.keyHash

/-- `njs_flathsh_add_elt`: the hash and the index of the new element, which has no value yet. -/
def njsFlathshAddElt (mem : Bool) (fhq : Query κ) (h : Descr κ ν) : Option (Descr κ ν × ℕ) :=
  match if h.eltsCount = h.eltsSize then njsExpandElts mem h else some h with
  | none => none
  | some h =>
    let elt := h.eltsCount
    let eltsCount := (h.eltsCount + 1) % 2 ^ 32
    let cell := cellNum fhq.keyHash h.hashMask
    some
      ({ h with
        eltsCount := eltsCount
        cells := Function.update h.cells cell eltsCount
        elts := Function.update h.elts elt
          { h.elts elt with
            keyHash := fhq.keyHash, nextElt := h.cells cell % 2 ^ 26, type := .property } }, elt)

/-- The body of `njs_flathsh_insert` and of `njs_flathsh_unique_insert`, which differ in the test.
`junk` is what new memory holds. The element to be written by the caller is returned. -/
def insertElt (p : Elt κ ν → Bool) (junk : ℕ → Elt κ ν) (mem : Bool) (fhq : Query κ)
    (fh : Flathsh κ ν) : Flathsh κ ν × Rc × Option ℕ :=
  let slot :=
    match fh with
    | none => if mem then some (njsFlathshNew junk) else none
    | some h => some h
  match slot with
  | none => (none, .error, none)
  | some h =>
    match search h fhq p with
    | some (_, elt) => if fhq.replace then (some h, .ok, some elt) else (some h, .declined, none)
    | none =>
      match njsFlathshAddElt mem fhq h with
      | none => (some h, .error, none)
      | some (h, elt) => (some h, .ok, some elt)

def njsFlathshInsert [DecidableEq κ] (junk : ℕ → Elt κ ν) (mem : Bool) (fhq : Query κ)
    (fh : Flathsh κ ν) : Flathsh κ ν × Rc × Option ℕ :=
  insertElt fhq.test junk mem fhq fh

def njsFlathshUniqueInsert (junk : ℕ → Elt κ ν) (mem : Bool) (fhq : Query κ)
    (fh : Flathsh κ ν) : Flathsh κ ν × Rc × Option ℕ :=
  insertElt fhq.testHash junk mem fhq fh

/-- What the caller of an insertion writes into the element that it gets. -/
def Descr.store (h : Descr κ ν) (elt : ℕ) (key : κ) (value : ν) : Descr κ ν :=
  { h with elts := Function.update h.elts elt { h.elts elt with key, value } }

/-- The body of `njs_flathsh_find` and of `njs_flathsh_unique_find`: the element found. -/
def findElt (p : Elt κ ν → Bool) (fhq : Query κ) (fh : Flathsh κ ν) : Option (Elt κ ν) :=
  match fh with
  | none => none
  | some h => (search h fhq p).map fun (_, elt) => h.elts elt

def njsFlathshFind [DecidableEq κ] (fhq : Query κ) (fh : Flathsh κ ν) : Option (Elt κ ν) :=
  findElt fhq.test fhq fh

def njsFlathshUniqueFind (fhq : Query κ) (fh : Flathsh κ ν) : Option (Elt κ ν) :=
  findElt fhq.testHash fhq fh

/-- `elt_prev->next_elt = elt->next_elt`, or the same in the cell if there is no element before. -/
def unlinkElt (fhq : Query κ) (eltPrev : Option ℕ) (elt : ℕ) (h : Descr κ ν) : Descr κ ν :=
  match eltPrev with
  | some prev =>
    { h with
      elts := Function.update h.elts prev
        { h.elts prev with nextElt := (h.elts elt).nextElt } }
  | none =>
    { h with
      cells := Function.update h.cells (cellNum fhq.keyHash h.hashMask)
        (h.elts elt).nextElt }

/-- `elts_deleted_count++` and `elt->type = NJS_FREE_FLATHSH_ELEMENT`. -/
def freeElt (elt : ℕ) (h : Descr κ ν) : Descr κ ν :=
  { h with
    eltsDeletedCount := h.eltsDeletedCount + 1
    elts := Function.update h.elts elt { h.elts elt with type := .free } }

def njsFlathshDelete [DecidableEq κ] (mem : Bool) (fhq : Query κ) (fh : Flathsh κ ν) :
    Flathsh κ ν × Rc :=
  match fh with
  | none => (none, .declined)
  | some h =>
    match search h fhq fhq.test with
    | none => (some h, .declined)
    | some (eltPrev, elt) =>
      let h := freeElt elt (unlinkElt fhq eltPrev elt h)
      match
        if h.eltsDeletedCount ≥ 8 ∧ h.eltsDeletedCount ≥ h.eltsCount / 2 then njsShrinkElts mem h
        else some h
      with
      | none => (some h, .error)
      | some h => if h.eltsDeletedCount = h.eltsCount then (none, .ok) else (some h, .ok)

/-- The loop of `njs_flathsh_each` from `cp` on, in so many rounds: the element that is returned,
and `cp` after it. -/
def eachLoop (h : Descr κ ν) : ℕ → ℕ → Option (ℕ × ℕ)
  | 0, _ => none
  | rounds + 1, cp =>
    if (h.elts cp).type ≠ .free then some (cp, cp + 1) else eachLoop h rounds (cp + 1)

def njsFlathshEach (fh : Flathsh κ ν) (cp : ℕ) : Option (ℕ × ℕ) :=
  match fh with
  | none => none
  | some h => eachLoop h (h.eltsCount - cp) cp

end Njs.FlatHash
