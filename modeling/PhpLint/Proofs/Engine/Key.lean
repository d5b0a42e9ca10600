import PhpLint.Engine.Cache
import PhpLint.Proofs.Text.Utf8

/-! The key of an analysis tells all that the analysis depends on, if no digests collide. -/
namespace PhpLint

/-! ### Digests -/

namespace Text

private theorem hexDigit_inj : ∀ m < 16, ∀ n < 16, hexDigit m = hexDigit n → m = n := by
  decide

theorem hex_inj {a b : List UInt8} (h : hex a = hex b) : a = b := by
  unfold hex at h
  rw [String.ofList_inj] at h
  induction a generalizing b with
  | nil =>
    cases b with
    | nil => rfl
    | cons y b => cases h
  | cons x a ih =>
    cases b with
    | nil => cases h
    | cons y b =>
      simp only [List.flatMap_cons, List.cons_append, List.nil_append, List.cons.injEq] at h
      obtain ⟨hhigh, hlow, hrest⟩ := h
      have hx := x.toNat_lt
      have hy := y.toNat_lt
      have hhigh := hexDigit_inj _ (by omega) _ (by omega) hhigh
      have hlow := hexDigit_inj _ (by omega) _ (by omega) hlow
      have hxy : x = y := by
        rw [← UInt8.toNat_inj]
        omega
      rw [hxy, ih hrest]

theorem length_hex (bytes : List UInt8) : (hex bytes).toList.length = 2 * bytes.length := by
  unfold hex
  rw [String.toList_ofList]
  induction bytes with
  | nil => rfl
  | cons b bytes ih =>
    rw [List.flatMap_cons, List.length_append, ih, List.length_cons, List.length_cons,
      List.length_cons, List.length_nil]
    omega

end Text

namespace Sha256

theorem length_digest (bytes : List UInt8) : (digest bytes).length = 32 := by
  unfold digest
  generalize compressAll .initial (words (pad bytes)) = s
  rfl

/-- No two different ones of some messages have one digest. -/
def NoCollision (messages : List (List UInt8)) : Prop :=
  ∀ a ∈ messages, ∀ b ∈ messages, digest a = digest b → a = b

theorem noCollision_of_nodup {messages : List (List UInt8)} (h : (messages.map digest).Nodup) :
    NoCollision messages :=
  fun _ ha _ hb heq => List.inj_on_of_nodup_map h ha hb heq

theorem NoCollision.mono {messages more : List (List UInt8)} (h : NoCollision more)
    (hsub : messages ⊆ more) : NoCollision messages :=
  fun a ha b hb heq => h a (hsub ha) b (hsub hb) heq

theorem NoCollision.hexDigest_inj {messages : List (List UInt8)} (h : NoCollision messages)
    {a b : List UInt8} (ha : a ∈ messages) (hb : b ∈ messages)
    (heq : hexDigest a = hexDigest b) : a = b :=
  h a ha b hb (Text.hex_inj heq)

end Sha256

theorem textBytes_inj {s t : String} (h : textBytes s = textBytes t) : s = t := by
  exact String.toByteArray_inj.mp (Text.toList_inj h)

theorem length_textBytes_hexDigest (bytes : List UInt8) :
    (textBytes (Sha256.hexDigest bytes)).length = 64 := by
  have hascii : ∀ b : UInt8, ∀ c ∈ [Text.hexDigit (b.toNat / 16), Text.hexDigit (b.toNat % 16)],
      c.toNat < 0x80 := by
    have hdigit : ∀ n < 16, (Text.hexDigit n).toNat < 0x80 := by decide
    intro b c hc
    have hb := b.toNat_lt
    simp only [List.mem_cons, List.not_mem_nil, or_false] at hc
    rcases hc with rfl | rfl
    · exact hdigit _ (by omega)
    · exact hdigit _ (by omega)
  have hoctets : Text.octets (Sha256.hexDigest bytes).toList =
      (Sha256.hexDigest bytes).toList := by
    apply Text.octets_of_ascii
    intro c hc
    rw [Sha256.hexDigest, Text.hex, String.toList_ofList] at hc
    obtain ⟨b, _, hb⟩ := List.mem_flatMap.mp hc
    exact hascii b c hb
  have hlength : (textBytes (Sha256.hexDigest bytes)).length =
      (Text.octets (Sha256.hexDigest bytes).toList).length := by
    rw [← Text.map_toUTF8, List.length_map]
    rfl
  rw [hlength, hoctets, Sha256.hexDigest, Text.length_hex, Sha256.length_digest]

/-! ### Keys -/

/-- A file as it is read: its name and content. -/
abbrev ReadFile := String × ByteArray

namespace Registry

/-- What is hashed for the identity of all that analyses of a mode depend on besides the file. -/
def modeMessage (r : Registry) (mode : LintMode) : List UInt8 :=
  textBytes CacheEntry.format ++ 0 :: textBytes mode.name ++ 0 :: textBytes r.fingerprint

/-- What is hashed for the key of an analysis. -/
def keyMessage (r : Registry) (mode : LintMode) (file : ReadFile) : List UInt8 :=
  textBytes file.1 ++ 0 :: Sha256.digest file.2.toList
    ++ 0 :: textBytes (r.analysisFingerprint mode)

/-- All that is hashed on the way to the key of an analysis. -/
def messages (r : Registry) (mode : LintMode) (file : ReadFile) : List (List UInt8) :=
  [r.modeMessage mode, file.2.toList, r.keyMessage mode file]

/-- The key of the analysis of a file. -/
def key (r : Registry) (mode : LintMode) (file : ReadFile) : String :=
  cacheKey (r.analysisFingerprint mode) file.1 file.2

variable {r r' : Registry} {mode mode' : LintMode} {file file' : ReadFile}

theorem length_textBytes_fingerprint (r : Registry) : (textBytes r.fingerprint).length = 64 :=
  length_textBytes_hexDigest _

/-- The identity of a registry is of fixed length, so that the name of the mode can be told from
it. -/
private theorem modeMessage_inj (h : r.modeMessage mode = r'.modeMessage mode') :
    mode = mode' ∧ r.fingerprint = r'.fingerprint := by
  unfold modeMessage at h
  obtain ⟨hname, hfingerprint⟩ := List.append_inj' h (by simp [length_textBytes_fingerprint])
  rw [List.append_cancel_left_eq, List.cons_inj_right] at hname
  rw [List.cons_inj_right] at hfingerprint
  have hname := textBytes_inj hname
  have hmode : mode = mode' := by
    cases mode <;> cases mode' <;> first | rfl | exact absurd hname (by decide)
  exact ⟨hmode, textBytes_inj hfingerprint⟩

/-- Equal keys have equal messages, for all parts but the first are of fixed length. -/
theorem key_inj (h : Sha256.NoCollision (r.messages mode file ++ r'.messages mode' file'))
    (heq : r.key mode file = r'.key mode' file') :
    mode = mode' ∧ r.fingerprint = r'.fingerprint ∧ file = file' := by
  have hmessage : r.keyMessage mode file = r'.keyMessage mode' file' :=
    h.hexDigest_inj (by simp [messages]) (by simp [messages]) heq
  unfold keyMessage at hmessage
  rw [List.append_assoc, List.append_assoc] at hmessage
  obtain ⟨hname, hrest⟩ := List.append_inj' hmessage (by
    simp [analysisFingerprint, length_textBytes_hexDigest, Sha256.length_digest])
  rw [List.cons_append, List.cons_append, List.cons_inj_right] at hrest
  obtain ⟨hdigest, hfingerprint⟩ := List.append_inj hrest (by simp [Sha256.length_digest])
  rw [List.cons_inj_right] at hfingerprint
  have hcontent : file.2.toList = file'.2.toList :=
    h _ (by simp [messages]) _ (by simp [messages]) hdigest
  have hmode : r.modeMessage mode = r'.modeMessage mode' :=
    h.hexDigest_inj (by simp [messages]) (by simp [messages]) (textBytes_inj hfingerprint)
  obtain ⟨hmode, hplugins⟩ := modeMessage_inj hmode
  exact ⟨hmode, hplugins, Prod.ext (textBytes_inj hname) (Text.toList_inj hcontent)⟩

end Registry

end PhpLint
