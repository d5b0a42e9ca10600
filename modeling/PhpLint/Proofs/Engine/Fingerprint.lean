import PhpLint.Proofs.Engine.Key
import PhpLint.Proofs.Text.Words

/-! The key of an analysis tells which plugins are registered, in which versions, for what and in
which order. -/
namespace PhpLint

/-! ### What a plugin contributes -/

theorem mem_of_mem_textBytes {s : String} {c : Char} (hc : c.toNat < 0x80)
    (h : UInt8.ofNat c.toNat ∈ textBytes s) : c ∈ s.toList := by
  unfold textBytes at h
  rw [Text.toList_toUTF8] at h
  obtain ⟨d, hd, hb⟩ := List.mem_flatMap.mp h
  by_cases hascii : d.toNat < 0x80
  · rw [Text.utf8EncodeChar_of_ascii hascii, List.mem_singleton] at hb
    have hnat := congrArg UInt8.toNat hb
    rw [UInt8.toNat_ofNat', UInt8.toNat_ofNat'] at hnat
    have heq : c.toNat = d.toNat := by omega
    rwa [Char.toNat_inj.mp heq]
  · have hle := Text.le_of_mem_utf8EncodeChar (Nat.le_of_not_lt hascii) hb
    rw [UInt8.toNat_ofNat'] at hle
    omega

namespace Capability

/-- What capabilities contribute to the identity of their plugin. -/
def bytes (capabilities : List Capability) : List UInt8 :=
  textBytes (String.join (capabilities.map tag))

/-- The tags stand without anything between them, but no two sets of them read alike. -/
private theorem bytes_inj : ∀ c ∈ all.sublists, ∀ d ∈ all.sublists, bytes c = bytes d → c = d := by
  decide +kernel

private theorem not_mem_bytes : ∀ c ∈ all.sublists, (0xff : UInt8) ∉ bytes c := by
  decide +kernel

end Capability

namespace Plugin

/-- What a plugin is identified by. -/
def identity (p : Plugin) : String × String × List Capability :=
  (p.id, p.version, p.capabilities)

/-- Neither the id nor the version of a plugin holds a NUL. -/
structure IsPlain (p : Plugin) : Prop where
  id : '\x00' ∉ p.id.toList
  version : '\x00' ∉ p.version.toList

theorem capabilities_mem_sublists (p : Plugin) : p.capabilities ∈ Capability.all.sublists := by
  rw [List.mem_sublists]
  exact List.filter_sublist

end Plugin

namespace Registry

/-- What a plugin with an identity contributes. -/
def identityBytes (identity : String × String × List Capability) : List UInt8 :=
  textBytes identity.1 ++ 0 :: (textBytes identity.2.1 ++ 0 ::
    (Capability.bytes identity.2.2 ++ [0xff]))

theorem pluginBytes_eq (p : Plugin) : pluginBytes p = identityBytes p.identity := by
  simp [pluginBytes, identityBytes, Plugin.identity, textBytes, Capability.bytes]

/-- What one plugin contributes can be told from what follows it. -/
theorem pluginBytes_append_inj {p q : Plugin} (hp : p.IsPlain) (hq : q.IsPlain)
    {s t : List UInt8} (h : pluginBytes p ++ s = pluginBytes q ++ t) :
    p.identity = q.identity ∧ s = t := by
  have hnul {u : String} (hu : '\x00' ∉ u.toList) : (0 : UInt8) ∉ textBytes u := by
    intro hmem
    exact hu (mem_of_mem_textBytes (by decide) hmem)
  have hpc := p.capabilities_mem_sublists
  have hqc := q.capabilities_mem_sublists
  simp only [pluginBytes_eq, identityBytes, Plugin.identity, List.append_assoc,
    List.cons_append, List.nil_append] at h
  obtain ⟨hid, h⟩ := Text.append_separator_inj (hnul hp.id) (hnul hq.id) h
  obtain ⟨hversion, h⟩ := Text.append_separator_inj (hnul hp.version) (hnul hq.version) h
  obtain ⟨htags, hrest⟩ := Text.append_separator_inj (Capability.not_mem_bytes _ hpc)
    (Capability.not_mem_bytes _ hqc) h
  have hcapabilities := Capability.bytes_inj _ hpc _ hqc htags
  unfold Plugin.identity
  rw [textBytes_inj hid, textBytes_inj hversion, hcapabilities]
  exact ⟨rfl, hrest⟩

/-- What is hashed for the identity of a registry. -/
def pluginMessage (r : Registry) : List UInt8 :=
  r.plugins.flatMap pluginBytes

/-- What some plugins contribute together tells them one by one. -/
theorem identities_inj {ps qs : List Plugin} (hps : ∀ p ∈ ps, p.IsPlain)
    (hqs : ∀ q ∈ qs, q.IsPlain) (h : ps.flatMap pluginBytes = qs.flatMap pluginBytes) :
    ps.map Plugin.identity = qs.map Plugin.identity := by
  have hne (p : Plugin) : pluginBytes p ≠ [] := by simp [pluginBytes]
  induction ps generalizing qs with
  | nil =>
    cases qs with
    | nil => rfl
    | cons q qs => exact absurd (List.append_eq_nil_iff.mp h.symm).1 (hne q)
  | cons p ps ih =>
    cases qs with
    | nil => exact absurd (List.append_eq_nil_iff.mp h).1 (hne p)
    | cons q qs =>
      rw [List.forall_mem_cons] at hps hqs
      rw [List.flatMap_cons, List.flatMap_cons] at h
      obtain ⟨hidentity, hrest⟩ := pluginBytes_append_inj hps.1 hqs.1 h
      rw [List.map_cons, List.map_cons, hidentity, ih hps.2 hqs.2 hrest]

theorem fingerprint_eq (r : Registry) : r.fingerprint = Sha256.hexDigest r.pluginMessage := by
  unfold fingerprint pluginMessage
  rfl

/-- The identities of its plugins are all that a registry contributes. -/
theorem pluginMessage_eq (r : Registry) :
    r.pluginMessage = (r.plugins.map Plugin.identity).flatMap identityBytes := by
  unfold pluginMessage
  rw [List.flatMap_map, funext pluginBytes_eq]

/-- All that is hashed on the way to a key, from the plugins on. -/
def keyMessages (r : Registry) (mode : LintMode) (file : ReadFile) : List (List UInt8) :=
  r.pluginMessage :: r.messages mode file

/-! ### Keys -/

/-- Two analyses have one key just if they are of one mode, by plugins with the same ids, versions
and capabilities in the same order, and of one file. -/
theorem key_eq_key_iff {r r' : Registry} {mode mode' : LintMode} {file file' : ReadFile}
    (hr : ∀ p ∈ r.plugins, p.IsPlain) (hr' : ∀ p ∈ r'.plugins, p.IsPlain)
    (h : Sha256.NoCollision (r.keyMessages mode file ++ r'.keyMessages mode' file')) :
    r.key mode file = r'.key mode' file' ↔
      mode = mode' ∧ r.plugins.map Plugin.identity = r'.plugins.map Plugin.identity ∧
        file = file' := by
  constructor
  · intro heq
    have hmessages : Sha256.NoCollision (r.messages mode file ++ r'.messages mode' file') := by
      apply h.mono
      intro message hmessage
      simp only [keyMessages, List.cons_append, List.mem_cons, List.mem_append] at hmessage ⊢
      tauto
    obtain ⟨hmode, hfingerprint, hfile⟩ := key_inj hmessages heq
    rw [fingerprint_eq, fingerprint_eq] at hfingerprint
    have hplugins : r.pluginMessage = r'.pluginMessage :=
      h.hexDigest_inj (List.mem_append_left _ List.mem_cons_self)
        (List.mem_append_right _ List.mem_cons_self) hfingerprint
    exact ⟨hmode, identities_inj hr hr' hplugins, hfile⟩
  · rintro ⟨rfl, hplugins, rfl⟩
    have hfingerprint : r.fingerprint = r'.fingerprint := by
      rw [fingerprint_eq, fingerprint_eq, pluginMessage_eq, pluginMessage_eq, hplugins]
    unfold key analysisFingerprint
    rw [hfingerprint]

/-- An id and a version that read alike without the separator, in files whose names hold it. -/
theorem key_eq_key_iff_shifted_version :
    let p (id version : String) : Plugin := ⟨id, "Plugin", version, none, none, none⟩
    let r : Registry := ⟨[], [p "lint" "12"]⟩
    let r' : Registry := ⟨[], [p "lint1" "2"]⟩
    let file : ReadFile := ("a\x00.php", ⟨#[0x3c]⟩)
    r.key .project file ≠ r'.key .project file := by
  intro p r r' file
  have honce : Sha256.NoCollision [r.pluginMessage, r.modeMessage .project, file.2.toList,
      r.keyMessage .project file, r'.pluginMessage, r'.modeMessage .project,
      r'.keyMessage .project file] := by
    apply Sha256.noCollision_of_nodup
    decide +kernel
  have hiff := @key_eq_key_iff r r' .project .project file file
    (by simp only [r, p, List.forall_mem_singleton]; exact ⟨by decide, by decide⟩)
    (by simp only [r', p, List.forall_mem_singleton]; exact ⟨by decide, by decide⟩)
    (honce.mono (by simp [keyMessages, messages]))
  rw [ne_eq, hiff]
  decide +kernel

end Registry

end PhpLint
