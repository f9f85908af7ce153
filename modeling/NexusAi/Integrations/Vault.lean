import Mathlib.Data.String.Basic
import Mathlib.Data.List.Sort
import NexusAi.Lib.Checked

/-!
# The credential vault

The fields of a credential are joined to one text, which is encrypted and stored, and
split from it again. Every text splits into at least one part, so a credential without
fields comes back with one that has neither a name nor a value.
-/

namespace NexusAi.Integrations.Vault
open NexusAi.Checked

abbrev Text := List Char

abbrev Fields := List (Text × Text)

inductive CredentialType
  | apiKey | bearerToken | basicAuth | oauth2Client | hmacSecret | providerSecretSet

def CredentialType.requiredFields : CredentialType → List Text
  | .apiKey => ["api_key".toList]
  | .bearerToken => ["token".toList]
  | .basicAuth => ["username".toList,"password".toList]
  | .oauth2Client => ["client_id".toList,"client_secret".toList]
  | .hmacSecret => ["secret".toList]
  | .providerSecretSet => []

inductive CredentialError
  | missingFields | fieldInvalid | nameInvalid | undecryptable | notStored

structure SecretMaterial where
  type : CredentialType
  fields : Fields

def secretMaterial (type : CredentialType) (fields : Fields) :
    Except CredentialError SecretMaterial := do
  require (∀ name ∈ type.requiredFields, name ∈ fields.map Prod.fst) .missingFields
  require (∀ f ∈ fields, (f.2.map Char.utf8Size).sum ≤ 8192) .fieldInvalid
  pure ⟨type,fields⟩

structure Fernet (C : Type) where
  encrypt : Text → C
  decrypt : C → Option Text
  inverts : ∀ blob, decrypt (encrypt blob) = some blob

structure EncryptedSecret (C : Type) where
  type : CredentialType
  ciphertext : C

abbrev Store (C : Type) := ℕ × Text → Option (EncryptedSecret C)

/-- `fields[name] = value` -/
def put (fields : Fields) (f : Text × Text) : Fields :=
  if f.1 ∈ fields.map Prod.fst then fields.map fun g => if g.1 = f.1 then f else g
  else fields++[f]

def sep : Char := '\x1f'

def joined (items : Fields) : Text := [sep].intercalate (items.map fun f => f.1++ '='::f.2)

/-- `part.partition("=")` without its middle. -/
def partition (part : Text) : Text × Text :=
  (part.takeWhile (· ≠ '='),(part.dropWhile (· ≠ '=')).tail)

section Code

variable {C : Type} (fernet : Fernet C)

def encode (material : SecretMaterial) : Except CredentialError C := do
  let items := material.fields.insertionSort fun f g => f.1 ≤ g.1
  each (fun f => require (sep ∉ f.1 ∧ sep ∉ f.2 ∧ '=' ∉ f.1) .nameInvalid) items
  pure (fernet.encrypt (joined items))

def decode (secret : EncryptedSecret C) : Except CredentialError SecretMaterial := do
  let blob ← present (fernet.decrypt secret.ciphertext) .undecryptable
  secretMaterial secret.type (((blob.splitOn sep).map partition).foldl put [])

def storeSecret (store : Store C) (organizationId : ℕ) (ref : Text) (material : SecretMaterial) :
    Except CredentialError (Store C) := do
  let ciphertext ← encode fernet material
  pure (Function.update store (organizationId,ref) (some ⟨material.type,ciphertext⟩))

def getSecret (store : Store C) (organizationId : ℕ) (ref : Text) :
    Except CredentialError SecretMaterial := do
  let row ← present (store (organizationId,ref)) .notStored
  decode fernet row

end Code

theorem partition_joined {name value : Text} (h : '=' ∉ name) :
    partition (name++ '='::value) = (name,value) := by
  have hname : ∀ c ∈ name, decide (c ≠ '=') := by
    intro c hc
    exact decide_eq_true fun heq => h (heq ▸ hc)
  rw [partition,List.takeWhile_append_of_pos hname,List.dropWhile_append_of_pos hname]
  simp

theorem foldl_put (fs gs : Fields) (h : ((fs++gs).map Prod.fst).Nodup) :
    gs.foldl put fs = fs++gs := by
  induction gs generalizing fs with
  | nil => simp
  | cons g gs ih =>
    have hput : put fs g = fs++[g] := by
      rw [put,if_neg]
      intro hg
      simp only [List.map_append,List.map_cons,List.nodup_append,List.mem_cons] at h
      exact h.2.2 _ hg _ (.inl rfl) rfl
    rw [List.foldl_cons,hput,ih _ (by simpa using h),List.append_assoc,List.singleton_append]

theorem split_joined {items : Fields} (hne : items ≠ [])
    (hparts : ∀ f ∈ items, sep ∉ f.1 ∧ sep ∉ f.2 ∧ '=' ∉ f.1) :
    ((joined items).splitOn sep).map partition = items := by
  have hclear : ∀ part ∈ items.map (fun f => f.1++ '='::f.2), sep ∉ part := by
    intro part hpart
    obtain ⟨f,hf,rfl⟩ := List.mem_map.mp hpart
    obtain ⟨hname,hvalue,-⟩ := hparts f hf
    simp [hname,hvalue,show sep ≠ '=' by decide]
  rw [joined,List.splitOn_intercalate sep hclear (by simpa using hne),List.map_map]
  conv_rhs => rw [← List.map_id items]
  apply List.map_congr_left
  intro f hf
  exact partition_joined (hparts f hf).2.2

/-- The fields come back as they were stored, unless there are none. -/
theorem fields_return_iff {C : Type} (fernet : Fernet C) (store store' : Store C)
    (organizationId : ℕ) (ref : Text) (type : CredentialType) (fields : Fields)
    (hdistinct : (fields.map Prod.fst).Nodup)
    (hstored : (secretMaterial type fields >>= storeSecret fernet store organizationId ref) =
      .ok store') :
    (∃ material, getSecret fernet store' organizationId ref = .ok material ∧
      material.type = type ∧ material.fields.Perm fields) ↔ fields ≠ [] := by
  simp only [bind_ok,secretMaterial,require_ok,pure_ok,storeSecret,encode,each_ok] at hstored
  obtain ⟨_,⟨-,hrequired,-,hsizes,rfl⟩,_,⟨-,hparts,rfl⟩,rfl⟩ := hstored
  have hperm := List.perm_insertionSort (fun f g : Text × Text => f.1 ≤ g.1) fields
  dsimp only at hparts ⊢
  generalize fields.insertionSort (fun f g => f.1 ≤ g.1) = items at hparts hperm ⊢
  simp only [getSecret,decode,secretMaterial,bind_ok,require_ok,pure_ok,present_ok,
    Function.update_self,Option.some.injEq]
  constructor
  · rintro ⟨_,⟨_,rfl,blob,hblob,-,-,-,-,rfl⟩,-,hfields⟩ rfl
    rw [fernet.inverts,hperm.eq_nil] at hblob
    cases hblob
    simp [joined,put] at hfields
  · intro hne
    have hread : (((joined items).splitOn sep).map partition).foldl put [] = items := by
      rw [split_joined (fun h => hne (List.perm_nil.mp (h ▸ hperm.symm))) hparts]
      exact foldl_put [] items ((hperm.map Prod.fst).nodup_iff.mpr hdistinct)
    refine ⟨⟨type,items⟩,⟨_,rfl,_,fernet.inverts _,(),?_,(),?_,?_⟩,rfl,hperm⟩ <;> rw [hread]
    · intro name hname
      exact (hperm.map Prod.fst).mem_iff.mpr (hrequired name hname)
    · intro f hf
      exact hsizes f (hperm.mem_iff.mp hf)

theorem plain_inverts (blob : Text) : some (id blob) = some blob := rfl

def plain : Fernet Text := ⟨id,some,plain_inverts⟩

theorem token_returns : ∃ store', (secretMaterial .bearerToken [("token".toList,"t=1".toList)] >>=
      storeSecret plain (fun _ => none) 0 []) = .ok store' ∧
    ∃ material, getSecret plain store' 0 [] = .ok material ∧ material.type = .bearerToken ∧
      material.fields.Perm [("token".toList,"t=1".toList)] :=
  ⟨_,rfl,(fields_return_iff plain _ _ 0 [] .bearerToken [("token".toList,"t=1".toList)]
    (by decide) rfl).mpr (by decide)⟩

/-- A set without fields comes back with the field of the empty name. -/
theorem empty_set_grows : ∃ store', (secretMaterial .providerSecretSet [] >>=
      storeSecret plain (fun _ => none) 0 []) = .ok store' ∧
    getSecret plain store' 0 [] = .ok ⟨.providerSecretSet,[([],[])]⟩ ∧
    ¬ ∃ material, getSecret plain store' 0 [] = .ok material ∧
      material.type = .providerSecretSet ∧ material.fields.Perm [] := by
  refine ⟨_,rfl,rfl,?_⟩
  rintro ⟨_,⟨⟩,-,hfields⟩
  exact absurd hfields.eq_nil (by decide)

end NexusAi.Integrations.Vault
