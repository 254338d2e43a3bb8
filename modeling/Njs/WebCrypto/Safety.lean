import Njs.WebCrypto.Calls

/-!
# Outcomes of WebCrypto functions

Memory that has been allocated stays, and a function that reads arguments does not read keys.
-/

namespace Njs.WebCrypto

open StateExcept

variable {α β : Type} {m : Memory} {x : M α} {P Q : α → Memory → Prop}

/-- Memory only grows, the result meets a condition, and no union is misread. -/
def Safe (m : Memory) (x : M α) (P : α → Memory → Prop) : Prop :=
  Post x m (fun a t => m <+: t ∧ P a t) (· ≠ .misread)

/-- Memory only grows, and no union is misread. -/
def Plain (x : M α) : Prop := ∀ m, Safe m x fun _ _ => True

/-! ### Rules -/

theorem Safe.pure {a : α} (h : P a m) : Safe m (pure a) P := ⟨List.prefix_rfl, h⟩

variable {f : Fault} {a? : Option α}

theorem Safe.throw (h : f ≠ .misread) : Safe m (throw f) P := h

theorem Safe.mono (h : Safe m x P) (hpq : ∀ a t, m <+: t → P a t → Q a t) : Safe m x Q :=
  Post.mono h (fun a t ha => ⟨ha.1, hpq a t ha.1 ha.2⟩) fun _ he => he

theorem Safe.bind {f : α → M β} {R : β → Memory → Prop} (h : Safe m x P)
    (hf : ∀ a t, m <+: t → P a t → Safe t (f a) R) : Safe m (x >>= f) R :=
  Post.bind h fun a t ha => Post.mono (hf a t ha.1 ha.2)
    (fun _ _ hb => ⟨ha.1.trans hb.1, hb.2⟩) fun _ he => he

theorem Safe.map {f : α → β} {R : β → Memory → Prop} (h : Safe m x P)
    (hf : ∀ a t, m <+: t → P a t → R (f a) t) : Safe m (f <$> x) R := by
  rw [map_eq_pure_bind]
  exact h.bind fun a t ht ha => Safe.pure (hf a t ht ha)

theorem Safe.ite {c : Prop} [Decidable c] {y : M α} (hx : c → Safe m x P)
    (hy : ¬c → Safe m y P) : Safe m (if c then x else y) P := by
  split_ifs with h
  · exact hx h
  · exact hy h

theorem Safe.failIf {c : Prop} [Decidable c] (h : f ≠ .misread) :
    Safe m (failIf c f) fun _ _ => ¬c :=
  Safe.ite (fun _ => Safe.throw h) fun hc => Safe.pure hc

theorem Plain.safe (h : Plain x) : Safe m x fun _ _ => True := h m

theorem Plain.pure {a : α} : Plain (Pure.pure a : M α) := fun _ => Safe.pure trivial

theorem Plain.throw (h : f ≠ .misread) : Plain (MonadExcept.throw f : M α) :=
  fun _ => Safe.throw h

theorem Plain.bind {f : α → M β} (h : Plain x) (hf : ∀ a, Plain (f a)) : Plain (x >>= f) :=
  fun m => (h m).bind fun a t _ _ => hf a t

theorem Plain.map {f : α → β} (h : Plain x) : Plain (f <$> x) :=
  fun m => (h m).map fun _ _ _ _ => trivial

theorem Plain.ite {c : Prop} [Decidable c] {y : M α} (hx : Plain x) (hy : Plain y) :
    Plain (if c then x else y) := fun m => Safe.ite (fun _ => hx m) fun _ => hy m

theorem Plain.failIf {c : Prop} [Decidable c] (h : f ≠ .misread) :
    Plain (failIf c f) := fun _ => (Safe.failIf h).mono fun _ _ _ _ => trivial

theorem Plain.mapM {f : α → M β} (hf : ∀ a, Plain (f a)) (l : List α) : Plain (l.mapM f) := by
  induction l with
  | nil => exact Plain.pure
  | cons a l ih =>
    rw [List.mapM_cons]
    exact (hf a).bind fun b => ih.bind fun bs => Plain.pure

/-! ### Memory -/

def Slice.Within (s : Slice) (m : Memory) : Prop := s.block < m.length ∨ s.length = 0

theorem Slice.Within.mono {s : Slice} {t : Memory} (h : s.Within m) (ht : m <+: t) :
    s.Within t := h.imp_left fun hb => hb.trans_le ht.length_le

theorem Slice.Within.bytes_eq {s : Slice} {t : Memory} (h : s.Within m) (ht : m <+: t) :
    t.bytes s = m.bytes s := by
  rcases h with h | h
  · have hblock : t[s.block]? = m[s.block]? := by
      obtain ⟨l, rfl⟩ := ht
      exact List.getElem?_append_left h
    rw [Memory.bytes, Memory.bytes, hblock]
  · simp [Memory.bytes, h]

theorem Safe.alloc {bytes : List UInt8} :
    Safe m (alloc bytes) fun s t => s.length = bytes.length ∧ s.block < t.length := by
  refine ⟨List.prefix_append m [bytes], rfl, ?_⟩
  rw [List.length_append, List.length_singleton]
  exact Nat.lt_succ_self _

theorem Plain.alloc {bytes : List UInt8} : Plain (alloc bytes) :=
  fun _ => Safe.alloc.mono fun _ _ _ _ => trivial

theorem Plain.bytesOf {s : Slice} : Plain (bytesOf s) := fun _ => ⟨List.prefix_rfl, trivial⟩

/-! ### Functions that are not modelled -/

theorem Safe.orFail (h : f ≠ .misread) : Safe m (orFail a? f) fun a _ => a? = some a := by
  rcases a? with _ | a
  · exact Safe.throw h
  · exact Safe.pure rfl

theorem Plain.orFail (h : f ≠ .misread) : Plain (orFail a? f) :=
  fun _ => (Safe.orFail h).mono fun _ _ _ _ => trivial

theorem Safe.openSsl {name : String} :
    Safe m (openSsl a? name) fun a _ => a? = some a := Safe.orFail (by simp)

theorem Plain.openSsl {name : String} : Plain (openSsl a? name) :=
  Plain.orFail (by simp)

theorem Plain.converted : Plain (converted a?) := Plain.orFail (by simp)

/-! ### Arguments -/

variable (env : Env)

theorem plain_njsValueToString (value : Value) : Plain (njsValueToString env value) := by
  cases value with
  | string text => exact Plain.pure
  | _ => exact Plain.converted

theorem safe_njsVmValueToBytes (value : Value) :
    Safe m (njsVmValueToBytes env value) fun s t => s.Within t := by
  have htext (v : Value) : Safe m (do
      let text ← njsValueToString env v
      alloc text) fun s t => s.Within t :=
    (plain_njsValueToString env v m).bind fun _ _ _ _ => Safe.alloc.mono fun _ _ _ h => Or.inl h.2
  cases value with
  | buffer s =>
    change Safe m (if s.block < m.length ∨ s.length = 0 then _ else _) _
    exact Safe.ite (fun h => Safe.pure h) fun _ => Safe.throw (by simp)
  | _ => exact htext _

theorem plain_njsVmValueToBytes (value : Value) : Plain (njsVmValueToBytes env value) :=
  fun _ => (safe_njsVmValueToBytes env value).mono fun _ _ _ _ => trivial

theorem plain_dataOf (value : Value) : Plain (dataOf env value) :=
  (plain_njsVmValueToBytes env value).bind fun _ => Plain.bytesOf

theorem plain_njsKeyFormat (value : Value) : Plain (njsKeyFormat env value) :=
  (plain_njsValueToString env value).bind fun _ => Plain.orFail (by simp)

theorem plain_njsKeyUsage (value : Value) : Plain (njsKeyUsage env value) := by
  have hfold (elements : List Value) (mask : Finset Usage) :
      Plain (elements.foldlM (njsKeyUsageArrayHandler env) mask) := by
    induction elements generalizing mask with
    | nil => exact Plain.pure
    | cons value elements ih =>
      refine Plain.bind ?_ fun mask' => ih mask'
      exact (plain_njsValueToString env value).bind fun _ =>
        (Plain.orFail (by simp)).bind fun _ => Plain.pure
  cases value with
  | array elements => exact hfold elements ∅
  | _ => exact Plain.throw (by simp)

theorem plain_njsKeyAlgorithm (options : Value) : Plain (njsKeyAlgorithm env options) := by
  have hname : Plain (algorithmName options) :=
    Plain.ite (Plain.orFail (by simp)) Plain.pure
  exact hname.bind fun name => (plain_njsValueToString env name).bind fun _ =>
    Plain.orFail (by simp)

theorem plain_njsAlgorithmHash (options : Value) : Plain (njsAlgorithmHash env options) :=
  Plain.ite Plain.pure ((plain_njsValueToString env _).bind fun _ => Plain.orFail (by simp))

theorem plain_njsAlgorithmCurve (options : Value) (curve : Option Curve) :
    Plain (njsAlgorithmCurve env options curve) := by
  rcases curve with _ | c
  · exact (plain_njsValueToString env _).bind fun _ => (Plain.orFail (by simp)).map
  · exact Plain.pure

theorem plain_required (options : Value) (name message : String) :
    Plain (required options name message) :=
  Plain.orFail (by simp)

theorem plain_requiredString (jwk : Value) (name message : String) :
    Plain (requiredString jwk name message) := by
  unfold requiredString
  split
  · exact Plain.pure
  · exact Plain.throw (by simp)

theorem plain_optionalString (jwk : Value) (name message : String) :
    Plain (optionalString jwk name message) := by
  unfold optionalString
  split
  · exact Plain.pure
  · exact Plain.pure
  · exact Plain.pure
  · exact Plain.throw (by simp)

theorem plain_requiredData (options : Value) (name message : String) :
    Plain (requiredData env options name message) :=
  (plain_required options name message).bind (plain_dataOf env)

theorem plain_requiredInteger (options : Value) (name message : String) :
    Plain (requiredInteger env options name message) :=
  (plain_required options name message).bind fun _ => Plain.converted

theorem plain_optionalInteger (options : Value) (name : String) (default : ℤ) :
    Plain (optionalInteger env options name default) := by
  unfold optionalInteger
  split
  · exact Plain.pure
  · exact Plain.pure
  · exact Plain.converted

theorem plain_optionalData (options : Value) (name : String) :
    Plain (optionalData env options name) := by
  unfold optionalData
  split
  · exact Plain.pure
  · exact Plain.pure
  · exact plain_dataOf env _

theorem safe_njsVmExternal (keys : List Key) (value : Value) (message : String) :
    Safe m (njsVmExternal keys value message) fun key _ =>
      ∃ id, value = .cryptoKey id ∧ keys[id]? = some key := by
  cases value with
  | cryptoKey id => exact (Safe.orFail (by simp)).mono fun key _ _ hkey => ⟨id, rfl, hkey⟩
  | _ => exact Safe.throw (by simp)

theorem safe_requireUsage (key : Key) (usage : Usage) (message : String) :
    Safe m (requireUsage key usage message) fun _ _ => usage ∈ key.usage :=
  (Safe.failIf (by simp)).mono fun _ _ _ h => not_not.1 h

theorem safe_requireAlg (key : Key) (alg : Alg) (operation : String) :
    Safe m (requireAlg key alg operation) fun _ _ => key.alg = alg :=
  (Safe.failIf (by simp)).mono fun _ _ _ h => not_not.1 h

end Njs.WebCrypto
