import PhpLint.Proofs.Model.Lexeme
import PhpLint.Proofs.Token.Code
import PhpLint.Proofs.Token.Stream

/-! Operators of a file have two characters at least. -/
namespace PhpLint.Token

variable {member : Bool} {c : Char} {r : List Char} {n : Nat}

theorem length_of_scanCode (h : scanCode member c r = .ok (.operator, n)) :
    1 ≤ n ∧ n ≤ r.length := by
  generalize hkind : Kind.operator = kind at h
  cases codeToken_of_scanCode h with
  | heredoc hc hr h =>
    rcases heredoc_eq_ok h with rfl | ⟨_, rfl⟩
    · contradiction
    · rw [hr, List.length_cons]
      omega
  | operator h =>
    rcases scanOperator_eq_ok h with ⟨op, hop, hbegin, _, rfl⟩ | ⟨_, rfl, _⟩
    · have hlong : ∀ op ∈ operators, 2 ≤ op.length := by decide
      have hlength := hlong op hop
      have hle := hbegin.length_le
      rw [String.length_toList, List.length_cons] at hle
      omega
    · contradiction
  | blockComment hc hr h =>
    obtain ⟨rfl | rfl, _⟩ := blockComment_eq_ok h <;> contradiction
  | word hc => split at hkind <;> contradiction
  | _ => contradiction

theorem length_of_scan {p : Position} (h : p.scan c r = .ok (.operator, n)) :
    1 ≤ n ∧ n ≤ r.length := by
  unfold Position.scan at h
  split at h
  · exact length_of_scanCode h
  · unfold scanText openTag? at h
    split at h
    · rename_i hopen
      split at hopen
      · cases hopen
        cases h
      · split at hopen
        · split at hopen
          · cases hopen
            cases h
          · cases hopen
            cases h
          · split at hopen
            · cases hopen
              cases h
            · contradiction
        · contradiction
      · contradiction
    · cases h

theorem longOperators_of_tokensFrom {p : Position} {s : List Char} {tokens : List Token}
    (h : tokensFrom p s = .ok tokens) : Lexeme.LongOperators tokens := by
  induction p, s using position_induction generalizing tokens with
  | nil p =>
    rw [tokensFrom] at h
    cases h
    intro t ht
    contradiction
  | cons p c r ih =>
    obtain ⟨kind, n, ts, hscan, hrest, rfl⟩ := tokensFrom_cons_eq_ok.mp h
    intro t ht hkind
    rcases List.mem_cons.mp ht with rfl | ht
    · have hkind : kind = .operator := hkind
      obtain ⟨hpos, hle⟩ := length_of_scan (hkind ▸ hscan)
      have hlength : (p.token kind c r n).text.length = n + 1 := by
        change (String.ofList (c :: r.take n)).length = n + 1
        rw [String.length_ofList, List.length_cons, List.length_take, Nat.min_eq_left hle]
      omega
    · exact ih kind n hscan hrest t ht hkind

theorem longOperators_of_ofContent {content : ByteArray} {tokens : List Token}
    (h : ofContent content = .ok tokens) : Lexeme.LongOperators tokens := by
  obtain ⟨s, _, hs⟩ := ofContent_eq_ok_iff.mp h
  exact longOperators_of_tokensFrom hs

end PhpLint.Token
