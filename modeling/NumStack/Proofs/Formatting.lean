import NumStack.Proofs.PipelineOutcome

/-!
# Formatting keeps the meaning

The canonical listing of an assembled text assembles to the same program, whatever spelling the text
had. So formatting twice gives the same listing as formatting once, and the listing runs as the text
does, on every sink.
-/

namespace NumStack

namespace Program

/-- The listing of a program that is ready has no faults, and its lines hold the program. -/
theorem listing_of_ready (p : Program) (hp : p.Ready) :
    allFaults false p.listing = [] ∧ (linesRead (tokensOf false p.listing)).1 = p := by
  obtain ⟨ts, ss, stop, hlines, hmap, hstop, hlexed⟩ := Token.lexed_listing p hp.finite .start
  have hread : linesRead (tokensOf false p.listing) = (p, []) := by
    rw [tokensOf, hlexed]
    exact linesRead_complete ts ss hlines p hmap [stop] (by simpa using hstop)
  refine ⟨?_, by rw [hread]⟩
  rw [allFaults, hlexed, List.nil_append, parseFaults_eq_nil_iff, hread]
  exact ⟨rfl, hp.hasExit⟩

end Program

/-- **Formatting keeps the meaning.** A program assembled from a text holds an `exit` and operands
that pass their check unchanged. Its listing assembles to the same program, so that formatting the
listing prints it again, and it is interpreted as the text is: with the same stack or fault and the
same effect on every sink. -/
theorem interpret_listing (text : String) (p : Program) (h : Program.assemble text = .ok p) :
    .exit ∈ p ∧ (∀ v ∈ p.operands, v.checked = .ok v) ∧
      Program.assemble p.listing = .ok p ∧
      (∀ verbosity, (Outcome.ofFormat verbosity text).stdout = Utf8.encode p.listing.toList ∧
        (Outcome.ofFormat verbosity p.listing).stdout = Utf8.encode p.listing.toList) ∧
      ∀ (policy : Policy) (σ : Type) [Sink σ] (sink : σ),
        interpret ⟨policy, false⟩ p.listing sink = interpret ⟨policy, false⟩ text sink := by
  obtain ⟨hfaults, hp⟩ := (Program.assemble_eq_ok_iff text p).1 h
  have hready : p.Ready := hp ▸ Program.ready_of_allFaults_eq_nil false text hfaults
  obtain ⟨hlisted, hlines⟩ := Program.listing_of_ready p hready
  have hlisting := (Program.assemble_eq_ok_iff p.listing p).2 ⟨hlisted, hlines.symm⟩
  refine ⟨hready.exit_mem, hready.checked, hlisting, ?_, ?_⟩
  · intro verbosity
    simp only [Outcome.ofFormat, h, hlisting, and_self]
  · intro policy σ _ sink
    have htext := (Program.assembleWith_eq_ok_iff ⟨policy, false⟩ text p).2 ⟨hfaults, hp⟩
    have hsame := (Program.assembleWith_eq_ok_iff ⟨policy, false⟩ p.listing p).2
      ⟨hlisted, hlines.symm⟩
    rw [interpret_of_ok _ _ p htext sink, interpret_of_ok _ _ p hsame sink]

/-- Signs, leading zeros, odd spacing, comments and excess digits give way to one spelling, which
runs alike. -/
theorem interpret_listing_odd_spelling :
    let text := ";odd\n push int8 ( -07 )\n\n push  float 00.100000001 ;?\npush double -0.0\n\texit"
    ∃ p, Program.assemble text = .ok p ∧
      p.listing = "push int8(-7)\npush float(0.1)\npush double(-0)\nexit\n" ∧
      ∀ sink : Buffer, interpret {} p.listing sink = interpret {} text sink := by
  intro text
  let p : Program := [.push (.int8 (-7)), .push (.float (Binary.ofDecimal false ⟨1, 1⟩)),
    .push (.double (Binary.zero true)), .exit]
  have htext : Program.assemble text = .ok p := by decide +kernel
  refine ⟨p, htext, by decide +kernel, ?_⟩
  obtain ⟨-, -, -, -, hinterpret⟩ := interpret_listing text p htext
  exact hinterpret .failFast Buffer

end NumStack
