import NumStack.Proofs.Lines
import NumStack.Proofs.Outcome

/-!
# The two policies agree

A fail-fast run stops at the first fault that a collecting run of the same work records, and without
faults both give the same value. The faults that a collecting assembly returns are sorted, so the
fault of the fail-fast assembly need not be the first of them; it is the first one recorded.
-/

namespace NumStack

/-! ## Agreement -/

namespace Report

variable {α : Type}

/-- A fail-fast run and a collecting run of the same work agree: collecting always comes to an end,
failing fast gives a value exactly if nothing was collected, and then the same value, and otherwise
gives the first fault collected. -/
def Agree (fast collecting : Except SourceFault (α × Report)) : Prop :=
  ∃ value faults, collecting = .ok (value, ⟨.collect, faults⟩) ∧
    (∀ value' report, fast = .ok (value', report) ↔
      faults = [] ∧ value' = value ∧ report = ⟨.failFast, []⟩) ∧
    ∀ fault, fast = .error fault ↔ faults.head? = some fault

/-- The two outcomes of one description agree. -/
theorem agree_outcome (value : α) (faults : List SourceFault) :
    Agree (outcome ⟨.failFast, []⟩ value faults) (outcome ⟨.collect, []⟩ value faults) := by
  refine ⟨value, faults, rfl, fun value' report => outcome_failFast_eq_ok_iff _ _ _ _, ?_⟩
  intro fault
  cases faults <;> simp [outcome]

end Report

/-! ## Lexical faults -/

/-- Whether a fault is found while the text is cut into tokens. -/
def SourceFault.isLexical : SourceFault → Bool
  | unexpectedCharacter _ _ | missingTerminator _ => true
  | _ => false

/-- Cutting a text into tokens finds lexical faults only. -/
theorem Token.isLexical_of_mem_lexed (interactive : Bool) (cs : List Char) (pos : Position) :
    ∀ fault ∈ (lexed interactive cs pos).2, fault.isLexical = true := by
  fun_induction lexed interactive cs pos with
  | case1 cs pos here hnil =>
    cases interactive <;> simp [SourceFault.isLexical]
  | case2 cs pos here c tail hcons lexeme hend => simp
  | case3 cs pos here c tail hcons lexeme hend after ih =>
    intro fault hmem
    dsimp only at hmem
    split at hmem
    · rcases List.mem_cons.1 hmem with rfl | hmem
      · rfl
      · exact ih fault hmem
    · exact ih fault hmem

theorem Token.HasFault.not_isLexical {t : Token} {fault : SourceFault} (h : t.HasFault fault) :
    fault.isLexical = false := by
  cases h <;> rfl

namespace Program

/-- Parsing finds no lexical fault. -/
theorem not_isLexical_of_mem_parseFaults (tokens : List Token) :
    ∀ fault ∈ parseFaults tokens, fault.isLexical = false := by
  have hlines : ∀ fault ∈ (linesRead tokens).2, fault.isLexical = false := by
    fun_induction linesRead tokens with
    | case1 tokens hnil => simp
    | case2 tokens t tail hcons hend => simp
    | case3 tokens t tail hcons hend after i hread ih => exact ih
    | case4 tokens t tail hcons hend after hread ih => exact ih
    | case5 tokens t tail hcons hend after fault hread ih =>
      intro fault' hmem
      rcases List.mem_cons.1 hmem with rfl | hmem
      · obtain ⟨_, -, -, hfault⟩ := Line.read_failsWith _ (Line.first_stop_inLine _) _ hread
        exact hfault.not_isLexical
      · exact ih fault' hmem
  intro fault hmem
  rcases List.mem_append.1 hmem with hmem | hmem
  · exact hlines fault hmem
  · split at hmem
    · cases hmem
    · rw [List.mem_singleton.1 hmem]
      rfl

/-! ## The agreement of the policies -/

/-- **The policies agree.** Tokenizing and parsing give the same value under both policies where
there is no fault, and otherwise failing fast returns the first fault that collecting records. So
both policies assemble the same programs; the one fault of a fail-fast assembly is the first one
that the collecting run records, which records lexical faults before those of the parser, and it is
in the sorted list that the collecting assembly returns. -/
theorem failFast_agrees_with_collect (interactive : Bool) (text : String) (tokens : List Token) :
    Report.Agree (Token.tokenize interactive text { policy := .failFast })
        (Token.tokenize interactive text { policy := .collect }) ∧
      Report.Agree (ofTokens tokens { policy := .failFast })
        (ofTokens tokens { policy := .collect }) ∧
      (∀ p, assembleWith ⟨.failFast, interactive⟩ text = .ok p ↔
        assembleWith ⟨.collect, interactive⟩ text = .ok p) ∧
      ∀ faults, assembleWith ⟨.failFast, interactive⟩ text = .error faults →
        ∃ p tokens lexical parsing fault sorted,
          faults = [fault] ∧
          Token.tokenize interactive text { policy := .collect } =
            .ok (tokens, ⟨.collect, lexical⟩) ∧
          ofTokens tokens ⟨.collect, lexical⟩ = .ok (p, ⟨.collect, lexical ++ parsing⟩) ∧
          read ⟨.collect, interactive⟩ text = .ok (p, ⟨.collect, lexical ++ parsing⟩) ∧
          (∀ fault ∈ lexical, fault.isLexical = true) ∧
          (∀ fault ∈ parsing, fault.isLexical = false) ∧
          (lexical ++ parsing).head? = some fault ∧
          assembleWith ⟨.collect, interactive⟩ text = .error sorted ∧ fault ∈ sorted := by
  refine ⟨?_, ?_, ?_, ?_⟩
  · rw [Token.tokenize_eq_outcome, Token.tokenize_eq_outcome]
    exact Report.agree_outcome _ _
  · rw [ofTokens_eq_outcome, ofTokens_eq_outcome]
    exact Report.agree_outcome _ _
  · intro p
    rw [assembleWith_failFast, assembleWith_collect]
    cases allFaults interactive text <;> simp
  · intro faults h
    rw [assembleWith_failFast] at h
    cases hall : allFaults interactive text with
    | nil =>
      rw [hall] at h
      cases h
    | cons fault others =>
      -- the first of all faults ends the fail-fast run; sorting keeps it among the others
      rw [hall] at h
      cases h
      refine ⟨(linesRead (tokensOf interactive text)).1, tokensOf interactive text,
        (Token.lexed interactive text.toList .start).2, parseFaults (tokensOf interactive text),
        fault, (fault :: others).mergeSort faultLe, rfl, ?_, ?_, ?_, ?_, ?_, ?_, ?_, ?_⟩
      · exact Token.tokenize_eq_outcome _ _ _
      · exact ofTokens_eq_outcome _ _
      · rw [read_eq_outcome]
        rfl
      · exact Token.isLexical_of_mem_lexed _ _ _
      · exact not_isLexical_of_mem_parseFaults _
      · exact congrArg List.head? hall
      · rw [assembleWith_collect, hall]
      · exact List.mem_mergeSort.2 List.mem_cons_self

end Program

end NumStack
