import Njs.Lib.Runs
import Njs.WebCrypto.UsedKeys

/-!
# The representation of keys in a run
-/

namespace Njs.WebCrypto

open Text
open Runs (AllSteps)

variable (env : Env)

/-- A script that has no keys. -/
def World.start (memory : Memory) (buffers : List Slice) : World := ⟨memory, buffers, []⟩

def Key.material (key : Key) (m : Memory) : List UInt8 :=
  match key.u with
  | .s raw => m.bytes raw
  | _ => []

def Key.Holds (key : Key) (block at' : ℕ) : Prop :=
  ∃ raw, key.u = .s raw ∧ raw.block = block ∧ raw.start ≤ at' ∧ at' < raw.start + raw.length

/-- The actions that keep to the representation of keys: calls that do, and writes to bytes that
belong to no key. -/
def World.Clean (w : World) : Action → Prop
  | .call c => c.Clean env w.keys
  | .write buffer offset _ => ∀ block at', w.target buffer offset = some (block, at') →
    ∀ key ∈ w.keys, ¬key.Holds block at'
  | .newBuffer _ => True

/-- The keys of a run: they are well-formed, every call reads of a key only the member that is
stored, and a key stays as it was made, with its bytes. -/
structure World.Represents (w : World) (actions : List Action) : Prop where
  wellFormed : ∀ l₁ l₂, actions = l₁ ++ l₂ → ∀ key ∈ (w.run env l₁).keys, key.WellFormed
  read : ∀ l₁ c l₂, actions = l₁ ++ .call c :: l₂ →
    (c.run env (w.run env l₁).keys).run (w.run env l₁).memory ≠ .error .misread
  unchanged : ∀ l₁ l₂, actions = l₁ ++ l₂ → ∀ (i : ℕ) (key : Key),
    (w.run env l₁).keys[i]? = some key →
    (w.run env actions).keys[i]? = some key ∧
      key.material (w.run env actions).memory = key.material (w.run env l₁).memory

/-! ### Steps -/

theorem bytes_write {m : Memory} {raw : Slice} {block at' : ℕ} {byte : UInt8}
    (h : ¬(raw.block = block ∧ raw.start ≤ at' ∧ at' < raw.start + raw.length)) :
    (m.write block at' byte).bytes raw = m.bytes raw := by
  unfold Memory.bytes Memory.write
  rw [List.getElem?_modify]
  rcases m[raw.block]? with _ | bytes
  · rfl
  change ((if block = raw.block then bytes.set at' byte else bytes).drop raw.start).take
    raw.length = (bytes.drop raw.start).take raw.length
  split_ifs with hblock
  · ext i : 1
    rw [List.getElem?_take, List.getElem?_take]
    split_ifs with hi
    · rw [List.getElem?_drop, List.getElem?_drop, List.getElem?_set_ne (by omega)]
    · rfl
  · rfl

variable {env}

/-- What a step keeps of the keys that there are. -/
structure World.Keeps (w w' : World) : Prop where
  keys : w.keys <+: w'.keys
  material : ∀ key ∈ w.keys, key.material w'.memory = key.material w.memory

def World.Sound (w : World) : Prop := ∀ key ∈ w.keys, key.Sound w.memory

theorem Key.Sound.material_eq {key : Key} {m t : Memory} (h : key.Sound m) (ht : m <+: t) :
    key.material t = key.material m := by
  unfold Key.material
  split
  · exact (h.within _ ‹_›).bytes_eq ht
  · rfl

variable {w : World}

theorem World.step_call_ok {c : Call} {r : Result} {t : Memory}
    (h : (c.run env w.keys).run w.memory = .ok (r, t)) :
    w.step env (.call c) = ⟨t, w.buffers ++ r.buffers, w.keys ++ r.keys⟩ := by
  simp only [World.step, h]

theorem World.step_call_error {c : Call} {f : Fault}
    (h : (c.run env w.keys).run w.memory = .error f) : w.step env (.call c) = w := by
  simp only [World.step, h]

theorem World.step_write {buffer offset block at' : ℕ} {byte : UInt8}
    (h : w.target buffer offset = some (block, at')) :
    w.step env (.write buffer offset byte) = {w with memory := w.memory.write block at' byte} := by
  simp only [World.step, h]

theorem World.step_write_none {buffer offset : ℕ} {byte : UInt8}
    (h : w.target buffer offset = none) : w.step env (.write buffer offset byte) = w := by
  simp only [World.step, h]

theorem World.Sound.step {w : World} (h : w.Sound) {a : Action} (hclean : w.Clean env a) :
    (w.step env a).Sound ∧ w.Keeps (w.step env a) := by
  have hrefl : w.Keeps w := ⟨List.prefix_rfl, fun _ _ => rfl⟩
  cases a with
  | call c =>
    have hsafe := safe_run h hclean
    rcases hrun : (c.run env w.keys).run w.memory with f | ⟨r, t⟩
    · rw [World.step_call_error hrun]
      exact ⟨h, hrefl⟩
    obtain ⟨ht, hr⟩ := hsafe.of_run hrun
    rw [World.step_call_ok hrun]
    refine ⟨fun key hkey => ?_, List.prefix_append _ _, fun key hkey =>
      (h key hkey).material_eq ht⟩
    rcases List.mem_append.1 hkey with hkey | hkey
    · exact (h key hkey).mono ht
    · exact hr key hkey
  | write buffer offset byte =>
    rcases htarget : w.target buffer offset with _ | ⟨block, at'⟩
    · rw [World.step_write_none htarget]
      exact ⟨h, hrefl⟩
    rw [World.step_write htarget]
    have hmaterial (key : Key) (hkey : key ∈ w.keys) :
        key.material (w.memory.write block at' byte) = key.material w.memory := by
      have hfree := hclean block at' htarget key hkey
      unfold Key.material
      split
      · exact bytes_write fun hat => hfree ⟨_, ‹_›, hat⟩
      · rfl
    refine ⟨fun key hkey => ⟨(h key hkey).wellFormed, (h key hkey).usage_subset,
      fun raw hu => ?_⟩, List.prefix_rfl, hmaterial⟩
    rw [Slice.Within, Memory.write, List.length_modify]
    exact (h key hkey).within raw hu
  | newBuffer bytes =>
    have ht : w.memory <+: w.memory ++ [bytes] := List.prefix_append _ _
    exact ⟨fun key hkey => (h key hkey).mono ht, List.prefix_rfl, fun key hkey =>
      (h key hkey).material_eq ht⟩

theorem World.Sound.read {w : World} (h : w.Sound) {c : Call} (hclean : c.Clean env w.keys) :
    (c.run env w.keys).run w.memory ≠ .error .misread :=
  fun hrun => (safe_run h hclean).of_error hrun rfl

/-! ### Runs -/

theorem World.run_append (w : World) (l₁ l₂ : List Action) :
    w.run env (l₁ ++ l₂) = (w.run env l₁).run env l₂ := List.foldl_append

theorem World.Sound.run (h : w.Sound) {actions : List Action}
    (hclean : AllSteps (World.step env) (World.Clean env) w actions) :
    (w.run env actions).Sound ∧ w.Keeps (w.run env actions) := by
  induction actions generalizing w with
  | nil => exact ⟨h, List.prefix_rfl, fun _ _ => rfl⟩
  | cons a actions ih =>
    obtain ⟨hsound, hkeeps⟩ := h.step hclean.1
    obtain ⟨hsound', hkeeps'⟩ := ih hsound hclean.2
    refine ⟨hsound', hkeeps.keys.trans hkeeps'.keys, fun key hkey => ?_⟩
    exact (hkeeps'.material key (hkeeps.keys.subset hkey)).trans (hkeeps.material key hkey)

theorem allSteps_append {P : World → Action → Prop} {l₁ l₂ : List Action} :
    AllSteps (World.step env) P w (l₁ ++ l₂) ↔
      AllSteps (World.step env) P w l₁ ∧ AllSteps (World.step env) P (w.run env l₁) l₂ := by
  induction l₁ generalizing w with
  | nil => exact (and_iff_right trivial).symm
  | cons a l₁ ih =>
    rw [List.cons_append, AllSteps, AllSteps, ih, and_assoc]
    rfl

/-- In a run of clean actions all keys are well-formed, no call misreads one, and none changes. -/
theorem World.run_represents (memory : Memory) (buffers : List Slice) (actions : List Action)
    (hclean : AllSteps (World.step env) (World.Clean env) (World.start memory buffers) actions) :
    (World.start memory buffers).Represents env actions := by
  have hstart : (World.start memory buffers).Sound := fun key hkey => by cases hkey
  refine ⟨?_, ?_, ?_⟩
  · rintro l₁ l₂ rfl key hkey
    exact ((hstart.run (allSteps_append.1 hclean).1).1 key hkey).wellFormed
  · rintro l₁ c l₂ rfl
    obtain ⟨h₁, h₂⟩ := allSteps_append.1 hclean
    exact (hstart.run h₁).1.read h₂.1
  rintro l₁ l₂ rfl i key hi
  obtain ⟨h₁, h₂⟩ := allSteps_append.1 hclean
  obtain ⟨-, hkeeps⟩ := (hstart.run h₁).1.run h₂
  rw [World.run_append]
  refine ⟨?_, hkeeps.material key (List.mem_of_getElem? hi)⟩
  obtain ⟨l, hl⟩ := hkeeps.keys
  rw [← hl, List.getElem?_append_left (List.getElem?_eq_some_iff.1 hi).1, hi]

/-! ### A script -/

/-- An interpreter that is only asked for strings and truth values, without OpenSSL. -/
def scriptEngine : Engine where
  toString _ := none
  toInteger _ := none
  octets _ := 0
  truth value := match value with
    | .undefined | .boolean false | .string [] => false
    | _ => true
  stringify _ := none
  parse _ := none
  encodeBase64url bytes := bytes
  decodeBase64url bytes := bytes

def failingOpenSsl : OpenSsl where
  randBytes _ _ := none
  rsaKeygen _ _ := none
  ecKeygen _ _ := none
  ed25519Keygen _ := none
  x25519Keygen _ := none
  pkcs8ToPkey _ := none
  d2iPubkey _ := none
  rsaPkey _ := none
  ecPoint _ _ := none
  ecPkey _ _ _ _ := none
  rawPrivateKey _ _ := none
  rawPublicKey _ _ := none
  getRawPublicKey _ := none
  getRawPrivateKey _ := none
  pkeyToPkcs8 _ := none
  i2dPubkey _ := none
  ecPoint2oct _ := none
  rsaNumbers _ := ⟨[], [], []⟩
  ecNumbers _ := none
  pkeyCipher _ _ _ _ := none
  aesGcm _ _ _ _ _ _ := none
  aesCtr128 _ _ _ _ := none
  aesCbc _ _ _ _ := none
  aesWrap _ _ _ := none
  pkeyDerive _ _ := none
  pbkdf2Hmac _ _ _ _ _ := none
  hkdf _ _ _ _ _ := none
  hmac _ _ _ := none
  digestSign _ _ := none
  digestVerify _ _ _ := none
  pkeySign _ _ _ _ _ := none
  pkeyVerify _ _ _ _ _ _ := none
  derToP1363 _ sig := sig
  p1363ToDer _ sig := sig

def scriptEnv : Env := {scriptEngine, failingOpenSsl with}

/-- `importKey("raw", buffer, {name: "AES-GCM"}, true, ["encrypt"])`. -/
def importGcm (buffer : Slice) : Call :=
  .importKey (.string (lit "raw")) (.buffer buffer) (.object [("name", .string (lit "AES-GCM"))])
    (.boolean true) (.array [.string (lit "encrypt")])

/-- The key that `importGcm` gives. -/
def gcmKey (buffer : Slice) : Key :=
  {alg := .aesGcm, usage := {.encrypt}, extractable := true, u := .s buffer}

/-- A buffer is written before a key is imported from it. -/
theorem World.run_represents_write_import :
    ((World.start [] []).run scriptEnv [.newBuffer (List.replicate 16 0), .write 0 3 7,
      .call (importGcm ⟨0, 0, 16⟩)]).keys = [gcmKey ⟨0, 0, 16⟩] ∧
    (World.start [] []).Represents scriptEnv [.newBuffer (List.replicate 16 0), .write 0 3 7,
      .call (importGcm ⟨0, 0, 16⟩)] := by
  refine ⟨by decide, World.run_represents [] [] _ ⟨trivial, ?_, trivial, trivial⟩⟩
  intro block at' _ key hkey
  cases hkey

/-- A buffer is written after a key has been imported from it: the key is no longer the same. -/
theorem World.import_write_not_represents :
    ¬(World.start [] []).Represents scriptEnv [.newBuffer (List.replicate 16 0),
      .call (importGcm ⟨0, 0, 16⟩), .write 0 3 7] := by
  intro h
  have hkey := h.unchanged [.newBuffer (List.replicate 16 0), .call (importGcm ⟨0, 0, 16⟩)]
    [.write 0 3 7] rfl 0 (gcmKey ⟨0, 0, 16⟩) (by decide)
  exact absurd hkey.2 (by decide)

end Njs.WebCrypto
