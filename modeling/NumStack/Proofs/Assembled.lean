import NumStack.Proofs.Listing
import NumStack.Proofs.LiteralDenotation

/-!
# Assembled programs

What the assembler accepts is ready to run. Every literal that it accepts denotes a finite operand,
so the operands of an assembled program pass the machine's own check. An assembled program also
holds an `exit`.
-/

namespace NumStack

/-! ## Lines give finite operands -/

/-- The instruction of a statement carries a finite operand, if any. -/
theorem Statement.isFinite_of_instruction? (s : Statement) (i : Instruction)
    (h : s.instruction? = some i) : ∀ v ∈ i.value?, v.isFinite = true := by
  intro v hv
  cases s with
  | simple o => cases o <;> cases h <;> cases hv
  | valued o kind literal =>
    dsimp only [instruction?] at h
    split at h
    · rename_i w hliteral
      have hw := (Operand.finite_of_ofLiteral kind literal w hliteral).2
      cases o <;> cases h <;> cases hv <;> exact hw
    · cases h

/-- So does the instruction of a line. -/
theorem Line.isFinite_of_read (l : Line) (hstop : l.stop.inLine = false) (i : Instruction)
    (h : l.read = .ok i) : ∀ v ∈ i.value?, v.isFinite = true := by
  unfold read at h
  obtain ⟨⟨j, rest⟩, hj, h⟩ := bind_eq_ok _ _ _ h
  obtain ⟨ts, s, -, hs, -⟩ := l.instruction_sound hstop j rest hj
  dsimp only at h
  split at h
  · cases h
    exact s.isFinite_of_instruction? _ hs
  · cases h

namespace Program

/-- The operands of the lines that are read are finite, whatever the other lines hold. -/
theorem isFinite_of_linesRead (tokens : List Token) :
    ∀ v ∈ (linesRead tokens).1.operands, v.isFinite = true := by
  fun_induction linesRead tokens with
  | case1 tokens hnil => simp [operands]
  | case2 tokens t tail hcons hend => simp [operands]
  | case3 tokens t tail hcons hend after i hread ih =>
    intro v hv
    obtain ⟨j, hj, hvalue⟩ := List.mem_filterMap.1 hv
    rcases List.mem_cons.1 hj with rfl | hj
    · exact Line.isFinite_of_read _ (Line.first_stop_inLine _) j hread v hvalue
    · exact ih v (List.mem_filterMap.2 ⟨j, hj, hvalue⟩)
  | case4 tokens t tail hcons hend after hread ih => exact ih
  | case5 tokens t tail hcons hend after fault hread ih => exact ih

/-! ## What the assembler gives -/

/-- A program is ready to run: it holds an `exit`, and its operands are finite. -/
structure Ready (p : Program) : Prop where
  hasExit : p.hasExit = true
  finite : ∀ v ∈ p.operands, v.isFinite = true

namespace Ready

variable {p : Program}

theorem exit_mem (h : p.Ready) : .exit ∈ p := (hasExit_iff p).1 h.hasExit

theorem checked (h : p.Ready) (v : Operand) (hv : v ∈ p.operands) : v.checked = .ok v :=
  v.checked_of_isFinite (h.finite v hv)

end Ready

/-- A file assembles to the instructions of its lines if it has no faults. -/
theorem assemble_eq_ok_iff (text : String) (p : Program) :
    assemble text = .ok p ↔
      allFaults false text = [] ∧ p = (linesRead (tokensOf false text)).1 := by
  rw [assemble, read_eq_outcome]
  cases allFaults false text <;> simp [Report.outcome, Except.map, eq_comm]

/-- So does a text under any options. -/
theorem assembleWith_eq_ok_iff (options : Options) (text : String) (p : Program) :
    assembleWith options text = .ok p ↔ allFaults options.interactive text = [] ∧
      p = (linesRead (tokensOf options.interactive text)).1 := by
  obtain ⟨policy, interactive⟩ := options
  cases policy with
  | failFast =>
    rw [assembleWith_failFast]
    cases allFaults interactive text <;> simp [eq_comm]
  | collect =>
    rw [assembleWith_collect]
    cases allFaults interactive text <;> simp [eq_comm]

/-- Otherwise it gives faults, of which there is one if it stops at the first. -/
theorem faults_of_assembleWith (options : Options) (text : String) (faults : List SourceFault)
    (h : assembleWith options text = .error faults) :
    faults ≠ [] ∧ (options.policy = .failFast → faults.length = 1) := by
  obtain ⟨policy, interactive⟩ := options
  cases policy with
  | failFast =>
    rw [assembleWith_failFast] at h
    split at h
    · cases h
    · cases h
      exact ⟨List.cons_ne_nil _ _, fun _ => rfl⟩
  | collect =>
    rw [assembleWith_collect] at h
    split at h
    · cases h
    · cases h
      exact ⟨List.ne_nil_of_mem (List.mem_mergeSort.2 List.mem_cons_self),
        fun hpolicy => by cases hpolicy⟩

/-- **What the assembler accepts is ready to run.** -/
theorem ready_of_allFaults_eq_nil (interactive : Bool) (text : String)
    (h : allFaults interactive text = []) : Ready (linesRead (tokensOf interactive text)).1 := by
  rw [allFaults, List.append_eq_nil_iff, parseFaults_eq_nil_iff] at h
  exact ⟨h.2.2, isFinite_of_linesRead _⟩

end Program

end NumStack
