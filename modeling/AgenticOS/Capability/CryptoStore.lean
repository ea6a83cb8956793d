import AgenticOS.Capability.System
import AgenticOS.Crypto.ChaCha20

/-!
# Decrypting sectors

The capability check of `crypto_store.rs`. It asks for the right `DECRYPT` and does
not look at the kind of the object, so that whoever grants this right decides what
decrypts. With grants of `DECRYPT` on keys only, only keys decrypt.
-/

namespace AgenticOS

open Foundation List Option

/-! ## The service -/

def sectorSize : Nat := 512

namespace CryptoService

/-- `transform_sector` into a buffer of its own. -/
def transformSector (key : Bytes 32) (lba : UInt64) (input : Bytes sectorSize) :
    Bytes sectorSize :=
  ⟨ChaCha20.transformSector key lba input.1, by
    rw [ChaCha20.length_transformSector]
    exact input.2⟩

def decryptSectorGated (table : CapabilityTable) (cap : CapId) (key : Bytes 32) (lba : UInt64)
    (ciphertext plaintextOut : Bytes sectorSize) (k : Core) :
    Except CapError Unit × Bytes sectorSize × Core :=
  match table.resolve cap .decrypt k with
  | (.error e, k) => (.error e, plaintextOut, k)
  | (.ok _, k) => (.ok (), transformSector key lba ciphertext, k)

/-- The check is the right, and nothing is written without it. -/
theorem decryptSectorGated_cases (table : CapabilityTable) (cap : CapId) (key : Bytes 32)
    (lba : UInt64) (ciphertext plaintextOut : Bytes sectorSize) (k : Core) :
    (∃ c, (table.resolve cap .decrypt k).1 = .ok c ∧
      decryptSectorGated table cap key lba ciphertext plaintextOut k =
        (.ok (), transformSector key lba ciphertext, k)) ∨
    ∃ e k', decryptSectorGated table cap key lba ciphertext plaintextOut k =
      (.error e, plaintextOut, k') := by
  unfold decryptSectorGated
  rcases hresolve : table.resolve cap .decrypt k with ⟨e | c, k'⟩
  · exact .inr ⟨e, k', rfl⟩
  · have hok : (table.resolve cap .decrypt k).1 = .ok c := by rw [hresolve]
    have hsame := CapabilityTable.resolve_of_ok hok
    rw [hresolve] at hsame
    obtain rfl : k' = k := (Prod.mk.inj hsame).2
    exact .inl ⟨c, rfl, rfl⟩

end CryptoService

/-! ## Keys and other objects -/

namespace CapState

variable {τ : Type} [DecidableEq τ]

def NamesKey (core : Core) (o : ObjectId) : Prop :=
  ∃ obj keyId, core.object? o = some obj ∧ obj.kind = .cryptoKey keyId

def GrantsOnKeys (s : CapState τ) : CapCall τ → Prop
  | .grant _ o r => r.contains .decrypt = true → NamesKey s.core o
  | _ => True

def DecryptOnKeys (s : CapState τ) : Prop :=
  ∀ t c cap, (s.tables t).slot? c = some cap → cap.rights.contains .decrypt = true →
    NamesKey s.core cap.objectId

theorem namesKey_congr {core core' : Core} (h : core'.objects = core.objects) (o : ObjectId) :
    NamesKey core' o ↔ NamesKey core o := by
  rw [NamesKey, Core.object?_congr h, NamesKey]

theorem NamesKey.createObject {core : Core} {o : ObjectId} (h : NamesKey core o)
    (kind : KernelObjectKind) : NamesKey (core.createObject kind).2 o := by
  obtain ⟨obj, keyId, hobj, hkind⟩ := h
  have hlt : o.toNat < core.objects.length := (List.getElem?_eq_some_iff.mp hobj).1
  refine ⟨obj, keyId, ?_, hkind⟩
  rw [Core.object?_createObject, if_neg hlt.ne, hobj]

theorem NamesKey.revoke {core : Core} {o : ObjectId} (h : NamesKey core o) (o' : ObjectId)
    (destroy : Bool) : NamesKey (core.revoke o' destroy) o := by
  obtain ⟨obj, keyId, hobj, hkind⟩ := h
  rw [NamesKey, Core.object?_revoke]
  by_cases heq : o = o'
  · subst heq
    rw [if_pos rfl, hobj]
    exact ⟨_, keyId, rfl, hkind⟩
  · rw [if_neg heq]
    exact ⟨obj, keyId, hobj, hkind⟩

/-- **One call.** Copies have no more rights than their source, and the kind of an object
never changes. -/
theorem decryptOnKeys_step (s : CapState τ) (c : CapCall τ) (h : s.DecryptOnKeys)
    (hc : s.GrantsOnKeys c) : (s.step c).DecryptOnKeys := by
  generalize hs' : s.step c = s'
  have heffect := call_effect s c
  rw [hs'] at heffect
  intro t i cap hslot hright
  cases heffect with
  | quiet hobjects htables =>
    rw [htables] at hslot
    exact (namesKey_congr hobjects _).mpr (h t i cap hslot hright)
  | created kind hobjects htables =>
    rw [htables] at hslot
    exact (namesKey_congr hobjects _).mpr ((h t i cap hslot hright).createObject kind)
  | minted t' o r hobjects htables =>
    rw [htables, slot?_update_push] at hslot
    rw [namesKey_congr hobjects]
    split_ifs at hslot
    · cases hslot
      exact hc hright
    · exact h t i cap hslot hright
  | copied t' sourceCapId source requested target hsource hrights hobjects htables =>
    rw [htables, slot?_update_push] at hslot
    rw [namesKey_congr hobjects]
    split_ifs at hslot
    · cases hslot
      exact h t' sourceCapId source (resolve_ok_iff.mp hsource).1
        (Rights.contains_trans hrights hright)
    · exact h t i cap hslot hright
  | revoked o destroy hobjects htables =>
    rw [htables] at hslot
    exact (namesKey_congr hobjects _).mpr ((h t i cap hslot hright).revoke o destroy)

/-- **Decryption needs a key.** From any registry and empty tables, after any calls that
grant `DECRYPT` on keys only: a sector is decrypted only with a capability that resolves
with `DECRYPT` to a live key, and what is refused leaves the output alone. -/
theorem decrypt_needs_key (core : Core) (calls : List (CapCall τ))
    (hcalls : Along step GrantsOnKeys ⟨core, fun _ => .new⟩ calls) (t : τ) (cap : CapId)
    (key : Bytes 32) (lba : UInt64) (ciphertext plaintextOut : Bytes sectorSize) :
    let s := CapState.after ⟨core, fun _ => .new⟩ calls
    let result := CryptoService.decryptSectorGated (s.tables t) cap key lba ciphertext plaintextOut
      s.core
    (result.1 = .ok () → ∃ c keyId, s.resolve t cap .decrypt = .ok c ∧
      s.core.objectKind c.objectId = some (.cryptoKey keyId)) ∧
    ∀ e, result.1 = .error e → result.2.1 = plaintextOut := by
  intro s result
  have hkeys : s.DecryptOnKeys := run_invariant decryptOnKeys_step (by
    intro t c cap hslot
    cases hslot) hcalls
  obtain ⟨c, hresolve, hresult⟩ | ⟨e, _, hresult⟩ := CryptoService.decryptSectorGated_cases
    (s.tables t) cap key lba ciphertext plaintextOut s.core
  · refine ⟨fun _ => ?_, fun e he => ?_⟩
    · obtain ⟨hslot, hgen, hright⟩ := CapabilityTable.resolve_ok_iff.mp hresolve
      obtain ⟨_, keyId, hobj, hkind⟩ := hkeys t cap c hslot hright
      refine ⟨c, keyId, hresolve, ?_⟩
      rw [Core.currentGen, hobj, map_eq_some_iff] at hgen
      obtain ⟨_, hfilter, -⟩ := hgen
      rw [Core.objectKind, hobj, hfilter, map_some, ← hkind]
      rw [(Option.some.inj (filter_eq_some_iff.mp hfilter).1)]
    · rw [show result = _ from hresult] at he
      cases he
  · refine ⟨fun hok => ?_, fun _ _ => ?_⟩
    · rw [show result = _ from hresult] at hok
      cases hok
    · rw [show result = _ from hresult]

/-- A key is created and granted, and its capability decrypts. -/
theorem decrypt_needs_key_granted :
    let s : CapState Unit := CapState.after ⟨.boot, fun _ => .new⟩
      [.createObject (.cryptoKey 7), .grant () 0 .decrypt]
    ∃ c keyId, s.resolve () 0 .decrypt = .ok c ∧
      s.core.objectKind c.objectId = some (.cryptoKey keyId) := by
  refine (decrypt_needs_key .boot [.createObject (.cryptoKey 7), .grant () 0 .decrypt]
    ⟨trivial, fun _ => ⟨_, 7, rfl, rfl⟩, trivial⟩ () 0 ⟨replicate 32 0, rfl⟩ 0
    ⟨replicate sectorSize 0, length_replicate⟩ ⟨replicate sectorSize 0, length_replicate⟩).1 rfl

/-- `DECRYPT` granted on an endpoint decrypts a sector. -/
theorem endpoint_decrypts :
    let s : CapState Unit := CapState.after ⟨.boot, fun _ => .new⟩
      [.createObject .ipcEndpoint, .grant () 0 .decrypt]
    ∀ (key : Bytes 32) (lba : UInt64) (ciphertext plaintextOut : Bytes sectorSize),
      (CryptoService.decryptSectorGated (s.tables ()) 0 key lba ciphertext plaintextOut
        s.core).1 = .ok () ∧
      ∀ c, s.resolve () 0 .decrypt = .ok c → s.core.objectKind c.objectId = some .ipcEndpoint := by
  intro s key lba ciphertext plaintextOut
  refine ⟨rfl, fun c hc => ?_⟩
  obtain rfl : (⟨0, .decrypt, 1⟩ : Capability) = c := Except.ok.inj hc
  rfl

end CapState

end AgenticOS
