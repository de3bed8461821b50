import NumStack.Proofs.MovedLines

/-!
# Lines are independent

A collecting assembly treats every line on its own. Behind a text of whole lines, another text gives
the instructions and faults that it gives alone, with the lines of its faults moved down. Faults are
listed by line, in a stable order, so the list of both texts is the list of the first and then that
of the second. Only a missing `exit` concerns the program as a whole.
-/

namespace NumStack

/-! ## Sorting in two parts -/

section Sorting

variable {α : Type} {le : α → α → Bool}

/-- Sorting puts the first element behind those that have to stand in front of it. -/
theorem mergeSort_cons_eq (htrans : ∀ a b c, le a b = true → le b c = true → le a c = true)
    (htotal : ∀ a b, (le a b || le b a) = true) (a : α) (l : List α) :
    (a :: l).mergeSort le = (l.mergeSort le).takeWhile (fun b => !le a b) ++
      a :: (l.mergeSort le).dropWhile (fun b => !le a b) := by
  obtain ⟨front, back, hsorted, hrest, hfront⟩ := List.mergeSort_cons htrans htotal a l
  have hpairwise := List.pairwise_mergeSort htrans htotal (a :: l)
  rw [hsorted, List.pairwise_append, List.pairwise_cons] at hpairwise
  have hback : ∀ b ∈ back.head?, (!le a b) = false := by
    intro b hb
    rw [hpairwise.2.1.1 b (List.mem_of_mem_head? hb)]
    rfl
  obtain ⟨htake, hdrop⟩ := run_append_stop (fun b => !le a b) front back hfront hback
  rw [hsorted, hrest, htake, hdrop]

/-- **Sorting in two parts.** Where the elements of one class all have to stand in front of the
others, a list is sorted by sorting the two classes. -/
theorem mergeSort_eq_append (htrans : ∀ a b c, le a b = true → le b c = true → le a c = true)
    (htotal : ∀ a b, (le a b || le b a) = true) (p : α → Bool)
    (hp : ∀ a b, p a = true → p b = false → le a b = true ∧ le b a = false) (l : List α) :
    l.mergeSort le = (l.filter p).mergeSort le ++ (l.filter fun a => !p a).mergeSort le := by
  induction l with
  | nil => simp
  | cons a l ih =>
    have hlow : ∀ b ∈ (l.filter p).mergeSort le, p b = true := by
      intro b hb
      exact (List.mem_filter.1 (List.mem_mergeSort.1 hb)).2
    have hhigh : ∀ b ∈ (l.filter fun a => !p a).mergeSort le, p b = false := by
      intro b hb
      simpa using (List.mem_filter.1 (List.mem_mergeSort.1 hb)).2
    rw [mergeSort_cons_eq htrans htotal a l, ih]
    cases ha : p a with
    | true =>
      -- the element may stand in front of the whole other class
      have hstop : ∀ b ∈ (((l.filter p).mergeSort le).dropWhile (fun b => !le a b) ++
          (l.filter fun a => !p a).mergeSort le).head?, (!le a b) = false := by
        intro b hb
        rw [List.head?_append] at hb
        cases hdrop : ((l.filter p).mergeSort le).dropWhile (fun b => !le a b) with
        | nil =>
          rw [hdrop] at hb
          simp [(hp a b ha (hhigh b (List.mem_of_mem_head? hb))).1]
        | cons c rest =>
          have hc := List.head?_dropWhile_not (fun b => !le a b) ((l.filter p).mergeSort le)
          rw [hdrop] at hb hc
          cases hb
          exact hc
      obtain ⟨htake, hdrop⟩ := run_append_stop _ _ _ (List.all_eq_true.1 List.all_takeWhile) hstop
      rw [← List.append_assoc, List.takeWhile_append_dropWhile] at htake hdrop
      rw [htake, hdrop, List.filter_cons_of_pos ha, List.filter_cons_of_neg (by simp [ha]),
        mergeSort_cons_eq htrans htotal a (l.filter p), List.append_assoc, List.cons_append]
    | false =>
      have hpass : ∀ b ∈ (l.filter p).mergeSort le, (!le a b) = true := by
        intro b hb
        simp [(hp b a (hlow b hb) ha).2]
      rw [List.takeWhile_append_of_pos hpass, List.dropWhile_append_of_pos hpass,
        List.filter_cons_of_neg (by simp [ha]), List.filter_cons_of_pos (by simp [ha]),
        mergeSort_cons_eq htrans htotal a (l.filter fun a => !p a), List.append_assoc]

/-- Two lists of both classes are sorted by sorting what they hold of each class. -/
theorem mergeSort_interleaved (htrans : ∀ a b c, le a b = true → le b c = true → le a c = true)
    (htotal : ∀ a b, (le a b || le b a) = true) (p : α → Bool)
    (hp : ∀ a b, p a = true → p b = false → le a b = true ∧ le b a = false)
    (low low' high high' : List α) (hlow : ∀ a ∈ low ++ low', p a = true)
    (hhigh : ∀ a ∈ high ++ high', p a = false) :
    (low ++ high ++ (low' ++ high')).mergeSort le =
      (low ++ low').mergeSort le ++ (high ++ high').mergeSort le := by
  have hfilter : (low ++ high ++ (low' ++ high')).filter p = low ++ low' := by
    have hkeep := List.filter_eq_self.2 hlow
    have hdrop := List.filter_eq_nil_iff.2 fun a ha => Bool.eq_false_iff.1 (hhigh a ha)
    rw [List.filter_append, List.append_eq_nil_iff] at hdrop
    rw [List.filter_append, List.filter_append, List.filter_append, hdrop.1, hdrop.2,
      List.append_nil, List.append_nil, ← List.filter_append, hkeep]
  have hfilter' : (low ++ high ++ (low' ++ high')).filter (fun a => !p a) = high ++ high' := by
    have hkeep : (high ++ high').filter (fun a => !p a) = high ++ high' :=
      List.filter_eq_self.2 fun a ha => by simp [hhigh a ha]
    have hdrop : (low ++ low').filter (fun a => !p a) = [] :=
      List.filter_eq_nil_iff.2 fun a ha => by simp [hlow a ha]
    rw [List.filter_append, List.append_eq_nil_iff] at hdrop
    rw [List.filter_append, List.filter_append, List.filter_append, hdrop.1, hdrop.2,
      List.nil_append, List.nil_append, ← List.filter_append, hkeep]
  rw [mergeSort_eq_append htrans htotal p hp, hfilter, hfilter']

end Sorting

/-! ## Faults and their lines -/

/-- Behind whole lines a text starts at the first column. -/
theorem Position.start_after_wholeLines (cs : List Char) (h : WholeLines cs) :
    Position.start.after cs = Position.start.down (cs.count '\n') := by
  have hcolumn : cs.reverse.takeWhile (· != '\n') = [] := by
    cases hhead : cs.reverse with
    | nil => rfl
    | cons c rest =>
      have hc : c = '\n' := by
        apply h c
        rw [List.getLast?_eq_head?_reverse, hhead]
        rfl
      simp [hc]
  have hbehind := Position.after_behind [] cs
  rw [List.nil_append] at hbehind
  refine (show Position.start.after cs = _ from hbehind).trans ?_
  rw [Position.behind, hcolumn]
  rfl

theorem Token.HasFault.line?_eq {t : Token} {fault : SourceFault} (h : t.HasFault fault) :
    fault.line? = some t.position.line := by
  cases h <;> rfl

namespace Token

/-- The lines of a scanned text are stopped. -/
theorem lexed_stopped (interactive : Bool) (cs : List Char) :
    Stopped (lexed interactive cs .start).1 := by
  obtain ⟨spans, rest, htokens, hlayout⟩ := exists_layout interactive cs .start [] rfl
  obtain ⟨init, last, rfl, -, hlast⟩ := hlayout.ends
  intro t ht
  rw [← htokens, List.map_append, List.map_singleton, List.getLast?_concat] at ht
  cases ht
  apply last.token.inLine_of_isEnd
  rcases hlast with ⟨hkind, -⟩ | ⟨-, hkind, -⟩ <;> simp [isEnd, hkind]

/-- Scanning finds nothing wrong above the line on which it starts. -/
theorem line_of_mem_lexed (interactive : Bool) (cs : List Char) (pos : Position) :
    ∀ fault ∈ (lexed interactive cs pos).2, ∃ k, fault.line? = some k ∧ pos.line ≤ k := by
  fun_induction lexed interactive cs pos with
  | case1 cs pos here hnil =>
    intro fault hmem
    cases interactive with
    | false => cases hmem
    | true =>
      rw [List.mem_singleton.1 hmem]
      exact ⟨here.line, rfl, by rw [Position.line_after]; omega⟩
  | case2 cs pos here c tail hcons lexeme hend => simp
  | case3 cs pos here c tail hcons lexeme hend after ih =>
    have hhere : pos.line ≤ here.line := by
      rw [Position.line_after]
      omega
    have hrest : ∀ fault ∈ after.2, ∃ k, fault.line? = some k ∧ pos.line ≤ k := by
      intro fault hmem
      obtain ⟨k, hk, hle⟩ := ih fault hmem
      rw [Position.line_after] at hle
      exact ⟨k, hk, by omega⟩
    intro fault hmem
    dsimp only at hmem
    split at hmem
    · rcases List.mem_cons.1 hmem with rfl | hmem
      · exact ⟨here.line, rfl, hhere⟩
      · exact hrest fault hmem
    · exact hrest fault hmem

/-- No token of a text stands above its first line. -/
theorem line_pos_of_mem_lexed (interactive : Bool) (cs : List Char) :
    ∀ t ∈ (lexed interactive cs .start).1, 1 ≤ t.position.line := by
  obtain ⟨spans, rest, htokens, hlayout⟩ := exists_layout interactive cs .start [] rfl
  intro t ht
  rw [← htokens] at ht
  obtain ⟨s, hs, rfl⟩ := List.mem_map.1 ht
  obtain ⟨pre, post, rfl⟩ := List.append_of_mem hs
  rw [(hlayout.placed pre s post rfl).2]
  exact Nat.le_add_right 1 _

end Token

namespace Program

/-- One line of the tokens is refused with the fault: the line starts behind whole lines, some of
its tokens are taken, and the next token, a valid one, is at fault. -/
def RefusesLine (tokens : List Token) (fault : SourceFault) : Prop :=
  ∃ above front t below, tokens = above ++ (front ++ t :: below) ∧
    (∀ u ∈ above.getLast?, u.isNewline = true) ∧
    (∃ u, (front ++ t :: below).head? = some u ∧ u.inLine = true) ∧
    t.kind ≠ .invalid ∧ Grammar.Refusal front t fault

/-- A line that is refused behind the first line is one of the tokens. -/
theorem RefusesLine.of_rest {tokens tail : List Token} {t : Token} {fault : SourceFault}
    (hcons : tokens.dropWhile Token.isNewline = t :: tail)
    (h : RefusesLine (tail.dropWhile Token.inLine) fault) : RefusesLine tokens fault := by
  obtain ⟨above, front, t, below, hrest, habove, ⟨u, hu, hin⟩, hrefusal⟩ := h
  obtain ⟨lead, rfl⟩ := Token.rest_suffix hcons
  refine ⟨lead ++ above, front, t, below, by rw [hrest, List.append_assoc], ?_, ⟨u, hu, hin⟩,
    hrefusal⟩
  -- the line does not start at once: what stops the line above it is in front
  have hne : above ≠ [] := by
    rintro rfl
    have hstop := inLine_of_head_dropWhile tail u (by rw [hrest]; exact hu)
    rw [hin] at hstop
    cases hstop
  rwa [List.getLast?_append_of_ne_nil _ hne]

/-- A line that is not read is refused. -/
theorem refusesLine_of_read (tokens : List Token) (h : Token.Stopped tokens) (t : Token)
    (tail : List Token) (hcons : tokens.dropWhile Token.isNewline = t :: tail)
    (hend : t.isEnd = false) (fault : SourceFault)
    (hread : (Line.first (t :: tail)).read = .error (.fault fault)) : RefusesLine tokens fault := by
  have hline : t :: tail <:+ tokens := hcons ▸ List.dropWhile_suffix Token.isNewline
  obtain ⟨front, rest, fault', hsplit, hrefusal, hfault⟩ :=
    Line.read_refused _ (Line.first_stop_inLine _) _ hread
  -- the rest of the line starts with one of the tokens
  obtain ⟨below, hbelow⟩ : ∃ below, t :: tail = front ++ rest.current :: below := by
    obtain ⟨stop, behind, hdrop⟩ := (h.of_suffix hline).exists_stop (List.cons_ne_nil t tail)
    have hstop : rest.stop = stop := by
      rw [← hsplit.2, Line.first, hdrop]
      rfl
    have htokens : t :: tail = front ++ (rest.tokens ++ rest.stop :: behind) := by
      rw [← List.append_assoc, ← hsplit.1, hstop, ← hdrop]
      exact List.takeWhile_append_dropWhile.symm
    rw [Line.current, htokens]
    cases rest.tokens with
    | nil => exact ⟨behind, rfl⟩
    | cons u more => exact ⟨more ++ rest.stop :: behind, rfl⟩
  refine ⟨tokens.takeWhile Token.isNewline, front, rest.current, below, ?_, ?_, ⟨t, ?_, ?_⟩, ?_⟩
  · rw [← hbelow, ← hcons, List.takeWhile_append_dropWhile]
  · intro u hu
    exact List.mem_takeWhile_imp (List.mem_of_getLast? hu)
  · rw [← hbelow]
    rfl
  · simp [Token.inLine, hend, isNewline_of_dropWhile_eq_cons tokens t tail hcons]
  · unfold LineFault.atToken at hfault
    split at hfault
    · cases hfault
    · rename_i hvalid
      cases hfault
      exact ⟨hvalid, hrefusal⟩

/-- **Faults of lines.** What is wrong with the lines of some tokens is why one of them is
refused. -/
theorem refusesLine_of_mem_linesRead (tokens : List Token) (h : Token.Stopped tokens) :
    ∀ fault ∈ (linesRead tokens).2, RefusesLine tokens fault := by
  fun_induction linesRead tokens with
  | case1 tokens hnil => simp
  | case2 tokens t tail hcons hend => simp
  | case3 tokens t tail hcons hend after i hread ih =>
    intro fault hmem
    exact (ih (h.of_suffix (Token.rest_suffix hcons)) fault hmem).of_rest hcons
  | case4 tokens t tail hcons hend after hread ih =>
    intro fault hmem
    exact (ih (h.of_suffix (Token.rest_suffix hcons)) fault hmem).of_rest hcons
  | case5 tokens t tail hcons hend after fault hread ih =>
    intro fault' hmem
    rcases List.mem_cons.1 hmem with rfl | hmem
    · exact refusesLine_of_read tokens h t tail hcons (Bool.eq_false_iff.2 hend) fault' hread
    · exact (ih (h.of_suffix (Token.rest_suffix hcons)) fault' hmem).of_rest hcons

/-- What is wrong with the lines of some tokens is wrong at one of the tokens. -/
theorem exists_token_of_mem_linesRead (tokens : List Token) (h : Token.Stopped tokens) :
    ∀ fault ∈ (linesRead tokens).2, ∃ t ∈ tokens, t.HasFault fault := by
  intro fault hmem
  obtain ⟨above, front, t, below, rfl, -, -, -, hrefusal⟩ :=
    refusesLine_of_mem_linesRead tokens h fault hmem
  exact ⟨t, by simp, hrefusal.hasFault⟩

/-! ## The faults of a text, sorted -/

theorem faultLe_trans (a b c : SourceFault) (hab : faultLe a b = true) (hbc : faultLe b c = true) :
    faultLe a c = true := by
  unfold faultLe at hab hbc ⊢
  cases ha : a.line? <;> cases hb : b.line? <;> cases hc : c.line? <;> simp_all
  omega

theorem faultLe_total (a b : SourceFault) : (faultLe a b || faultLe b a) = true := by
  unfold faultLe
  cases a.line? <;> cases b.line? <;> simp
  omega

/-- The faults of a file that have a place: all but a missing `exit`. -/
def placedFaults (text : String) : List SourceFault :=
  (Token.lexed false text.toList .start).2 ++ (linesRead (tokensOf false text)).2

/-- Placed faults have a line, and lines count from one. -/
theorem line_of_mem_placedFaults (text : String) (fault : SourceFault)
    (h : fault ∈ placedFaults text) : ∃ k, fault.line? = some k ∧ 1 ≤ k := by
  rcases List.mem_append.1 h with h | h
  · exact Token.line_of_mem_lexed false _ .start fault h
  · obtain ⟨t, ht, hfault⟩ :=
      exists_token_of_mem_linesRead _ (Token.lexed_stopped false text.toList) fault h
    exact ⟨_, hfault.line?_eq, Token.line_pos_of_mem_lexed false _ t ht⟩

/-- The faults that an assembly reports. -/
def reported (options : Options) (text : String) : List SourceFault :=
  match assembleWith options text with
  | .ok _ => []
  | .error faults => faults

/-- A collecting assembly reports all faults, sorted by line. -/
theorem reported_eq_mergeSort (interactive : Bool) (text : String) :
    reported ⟨.collect, interactive⟩ text = (allFaults interactive text).mergeSort faultLe := by
  rw [reported, assembleWith_collect]
  cases allFaults interactive text with
  | nil => simp
  | cons fault faults => rfl

/-- A collecting assembly reports the placed faults by line, and then a missing `exit`. -/
theorem reported_collect (text : String) :
    reported ⟨.collect, false⟩ text = (placedFaults text).mergeSort faultLe ++
      if (linesRead (tokensOf false text)).1.hasExit then [] else [.missingExit] := by
  have hall : allFaults false text = placedFaults text ++
      if (linesRead (tokensOf false text)).1.hasExit then [] else [.missingExit] := by
    rw [allFaults, parseFaults, placedFaults, List.append_assoc]
  have hplaced : ∀ fault ∈ placedFaults text, fault.line?.isSome = true := by
    intro fault h
    obtain ⟨k, hk, -⟩ := line_of_mem_placedFaults text fault h
    rw [hk]
    rfl
  have hnone : (placedFaults text).filter (fun fault => !fault.line?.isSome) = [] := by
    rw [List.filter_eq_nil_iff]
    intro fault h
    simp [hplaced fault h]
  have hlast : ∀ a b : SourceFault, a.line?.isSome = true → b.line?.isSome = false →
      faultLe a b = true ∧ faultLe b a = false := by
    intro a b ha hb
    unfold faultLe
    cases ha' : a.line? <;> cases hb' : b.line? <;> simp_all
  rw [reported_eq_mergeSort, hall, mergeSort_eq_append faultLe_trans faultLe_total _ hlast,
    List.filter_append, List.filter_append, List.filter_eq_self.2 hplaced, hnone]
  cases (linesRead (tokensOf false text)).1.hasExit <;>
    simp [SourceFault.line?, SourceFault.position?]

/-- A collecting assembly reports a missing `exit` if the lines of the text hold none. -/
theorem missingExit_mem_reported (text : String) :
    .missingExit ∈ reported ⟨.collect, false⟩ text ↔
      (linesRead (tokensOf false text)).1.hasExit = false := by
  have hplaced : .missingExit ∉ placedFaults text := by
    intro h
    obtain ⟨k, hk, -⟩ := line_of_mem_placedFaults text _ h
    cases hk
  rw [reported_collect, List.mem_append, List.mem_mergeSort]
  cases (linesRead (tokensOf false text)).1.hasExit <;> simp [hplaced]

/-- All else that it reports are the placed faults by line. -/
theorem reported_filter (text : String) :
    (reported ⟨.collect, false⟩ text).filter (· ≠ .missingExit) =
      (placedFaults text).mergeSort faultLe := by
  have hplaced : ∀ fault ∈ (placedFaults text).mergeSort faultLe,
      decide (fault ≠ .missingExit) = true := by
    intro fault h
    obtain ⟨k, hk, -⟩ := line_of_mem_placedFaults text fault (List.mem_mergeSort.1 h)
    rw [decide_eq_true_iff]
    rintro rfl
    cases hk
  rw [reported_collect, List.filter_append, List.filter_eq_self.2 hplaced]
  cases (linesRead (tokensOf false text)).1.hasExit <;> simp

/-! ## One text behind another -/

/-- What a text gives behind whole lines: what the lines give, all of it on them, and then what the
text gives alone, moved down. -/
theorem lexed_linesRead_append (a b : String) (ha : WholeLines a.toList) :
    (Token.lexed false (a ++ b).toList .start).2 =
        (Token.lexed false a.toList .start).2 ++
          (Token.lexed false b.toList .start).2.map (SourceFault.down (a.toList.count '\n')) ∧
      linesRead (tokensOf false (a ++ b)) =
        ((linesRead (tokensOf false a)).1 ++ (linesRead (tokensOf false b)).1,
          (linesRead (tokensOf false a)).2 ++
            (linesRead (tokensOf false b)).2.map (SourceFault.down (a.toList.count '\n'))) ∧
      ∀ fault ∈ placedFaults a, ∃ k, fault.line? = some k ∧ k ≤ a.toList.count '\n' := by
  obtain ⟨tokens, faults, habove, -, hlexed⟩ := Token.exists_lexed_append a.toList .start ha
  rw [Position.start_after_wholeLines _ ha] at habove hlexed
  have hline : (Position.start.down (a.toList.count '\n')).line = 1 + a.toList.count '\n' := rfl
  have hb := hlexed b.toList
  rw [Token.lexed_down, ← String.toList_append] at hb
  -- alone, the lines are followed by the end of the file
  have hend : Token.lexed false [] (Position.start.down (a.toList.count '\n')) =
      ([⟨.endOfFile, "", Position.start.down (a.toList.count '\n')⟩], []) :=
    Token.lexed_of_dropWhile_eq_nil false [] _ rfl
  have hnil := hlexed []
  rw [List.append_nil, hend, List.append_nil] at hnil
  have hnone : linesRead [⟨.endOfFile, "", Position.start.down (a.toList.count '\n')⟩] = ([], []) :=
    linesRead_of_head_isEnd _ (by simp [Token.isEnd])
  have hlines : linesRead (tokensOf false a) = linesRead tokens := by
    rw [tokensOf, hnil, linesRead_append _ _ habove.newline habove.noEnd, hnone, List.append_nil,
      List.append_nil]
  refine ⟨?_, ?_, ?_⟩
  · rw [hb, hnil]
  · rw [hlines, tokensOf, hb, linesRead_append _ _ habove.newline habove.noEnd,
      linesRead_down _ _ (Token.lexed_stopped false b.toList), tokensOf]
  · intro fault h
    rw [placedFaults, hlines, hnil] at h
    rcases List.mem_append.1 h with h | h
    · obtain ⟨k, hk, hlt⟩ := habove.faultLine fault h
      exact ⟨k, hk, by omega⟩
    · have hstopped : Token.Stopped tokens := by
        intro t ht
        exact t.inLine_of_isNewline (habove.newline t ht)
      obtain ⟨t, ht, hfault⟩ := exists_token_of_mem_linesRead tokens hstopped fault h
      have hlt := habove.tokenLine t ht
      exact ⟨_, hfault.line?_eq, by omega⟩

theorem faultLe_down (n : Nat) (a b : SourceFault) :
    faultLe a b = faultLe (a.down n) (b.down n) := by
  unfold faultLe
  rw [SourceFault.line?_down, SourceFault.line?_down]
  cases a.line? <;> cases b.line? <;> simp

/-- The placed faults of a text behind whole lines, sorted. -/
theorem placedFaults_append (a b : String) (ha : WholeLines a.toList) :
    (placedFaults (a ++ b)).mergeSort faultLe = (placedFaults a).mergeSort faultLe ++
      ((placedFaults b).mergeSort faultLe).map (SourceFault.down (a.toList.count '\n')) := by
  obtain ⟨hlexed, hlines, hle⟩ := lexed_linesRead_append a b ha
  have hgt : ∀ fault ∈ (placedFaults b).map (SourceFault.down (a.toList.count '\n')),
      ∃ k, fault.line? = some k ∧ a.toList.count '\n' < k := by
    intro fault h
    obtain ⟨fault', hfault', rfl⟩ := List.mem_map.1 h
    obtain ⟨k, hk, hpos⟩ := line_of_mem_placedFaults b fault' hfault'
    exact ⟨k + a.toList.count '\n', by rw [SourceFault.line?_down, hk]; rfl, by omega⟩
  have hclasses : ∀ f g : SourceFault, f.line?.any (· ≤ a.toList.count '\n') = true →
      g.line?.any (· ≤ a.toList.count '\n') = false →
      faultLe f g = true ∧ faultLe g f = false := by
    intro f g hf hg
    unfold faultLe
    cases hf' : f.line? <;> cases hg' : g.line? <;> simp_all
    omega
  -- the faults as they are met, with the lexical ones first
  have hall : placedFaults (a ++ b) = (Token.lexed false a.toList .start).2 ++
      (Token.lexed false b.toList .start).2.map (SourceFault.down (a.toList.count '\n')) ++
      ((linesRead (tokensOf false a)).2 ++
        (linesRead (tokensOf false b)).2.map (SourceFault.down (a.toList.count '\n'))) := by
    rw [placedFaults, hlexed, hlines]
  have hlow : ∀ fault ∈ (Token.lexed false a.toList .start).2 ++ (linesRead (tokensOf false a)).2,
      fault.line?.any (· ≤ a.toList.count '\n') = true := by
    intro fault h
    obtain ⟨k, hk, hle⟩ := hle fault h
    simpa [hk] using hle
  have hhigh : ∀ fault ∈
      (Token.lexed false b.toList .start).2.map (SourceFault.down (a.toList.count '\n')) ++
        (linesRead (tokensOf false b)).2.map (SourceFault.down (a.toList.count '\n')),
      fault.line?.any (· ≤ a.toList.count '\n') = false := by
    intro fault h
    rw [← List.map_append] at h
    obtain ⟨k, hk, hgt⟩ := hgt fault h
    simpa [hk] using hgt
  rw [hall, mergeSort_interleaved faultLe_trans faultLe_total _ hclasses _ _ _ _ hlow hhigh,
    ← List.map_append, ← List.map_mergeSort fun f _ g _ => faultLe_down _ f g]
  rfl

/-! ## The independence of lines -/

/-- **Lines are independent.** In a file, behind a text that is empty or ends with a newline,
another text adds its own instructions and faults to those of the first. The collected faults, a
missing `exit` aside, are those of the first text and then those of the second, whose lines are
moved by the newlines of the first. An `exit` is missing in both texts together if it is missing in
each. -/
theorem assembleWith_collect_append (a b : String)
    (ha : a = "" ∨ a.toList.getLast? = some '\n') :
    (∃ p q r s t, read ⟨.collect, false⟩ a = .ok (p, r) ∧ read ⟨.collect, false⟩ b = .ok (q, s) ∧
      read ⟨.collect, false⟩ (a ++ b) = .ok (p ++ q, t)) ∧
    (reported ⟨.collect, false⟩ (a ++ b)).filter (· ≠ .missingExit) =
      (reported ⟨.collect, false⟩ a).filter (· ≠ .missingExit) ++
        ((reported ⟨.collect, false⟩ b).filter (· ≠ .missingExit)).map
          (SourceFault.down (a.toList.count '\n')) ∧
    (.missingExit ∈ reported ⟨.collect, false⟩ (a ++ b) ↔
      .missingExit ∈ reported ⟨.collect, false⟩ a ∧
        .missingExit ∈ reported ⟨.collect, false⟩ b) := by
  have hwhole : WholeLines a.toList := by
    intro c hc
    rcases ha with rfl | ha
    · cases hc
    · rw [ha] at hc
      exact (Option.some.inj hc).symm
  obtain ⟨-, hlines, -⟩ := lexed_linesRead_append a b hwhole
  refine ⟨?_, ?_, ?_⟩
  · refine ⟨(linesRead (tokensOf false a)).1, (linesRead (tokensOf false b)).1,
      ⟨.collect, allFaults false a⟩, ⟨.collect, allFaults false b⟩,
      ⟨.collect, allFaults false (a ++ b)⟩, read_eq_outcome _ a, read_eq_outcome _ b, ?_⟩
    rw [read_eq_outcome, hlines]
    rfl
  · rw [reported_filter, reported_filter, reported_filter, placedFaults_append a b hwhole]
  · rw [missingExit_mem_reported, missingExit_mem_reported, missingExit_mem_reported, hlines,
      hasExit, List.any_append, Bool.or_eq_false_iff]
    rfl

/-- Two faulty lines in front of a text with two more: the faults of the second text are two lines
further down, behind those of the first, although scanning meets them first. -/
theorem assembleWith_collect_append_faulty :
    let a := "push int8(300)\n  pop pop\n"
    let b := "pop\n@ push\nadd?"
    (a = "" ∨ a.toList.getLast? = some '\n') ∧
      (reported ⟨.collect, false⟩ (a ++ b)).filter (· ≠ .missingExit) =
        [.invalidOperand ⟨1, 11⟩ (.overflow .int8 "300"),
          .unexpectedToken ⟨2, 7⟩ "end of line" "pop",
          .unexpectedCharacter ⟨4, 1⟩ '@', .unexpectedCharacter ⟨5, 4⟩ '?'] := by
  intro a b
  have hlast : a = "" ∨ a.toList.getLast? = some '\n' := .inr (by decide +kernel)
  have hplaced : placedFaults a = [.invalidOperand ⟨1, 11⟩ (.overflow .int8 "300"),
      .unexpectedToken ⟨2, 7⟩ "end of line" "pop"] := by decide +kernel
  have hplaced' : placedFaults b = [.unexpectedCharacter ⟨2, 1⟩ '@',
      .unexpectedCharacter ⟨3, 4⟩ '?'] := by decide +kernel
  refine ⟨hlast, ?_⟩
  rw [(assembleWith_collect_append a b hlast).2.1, reported_filter, reported_filter, hplaced,
    hplaced', List.mergeSort_of_pairwise (by decide), List.mergeSort_of_pairwise (by decide)]
  decide +kernel

end Program

end NumStack
