import NumStack.Source.Assembly

/-!
# Assembly as an outcome

Under either policy the same faults lie on the way of a source text; the policies differ only in
whether the first of them ends the work. So the work is described once without a report, as a value
and the list of all faults met, and a report makes an outcome of such a description. Each stage of
the assembly is the outcome of its description.
-/

namespace NumStack

namespace Report

/-! ## Outcomes -/

variable {α β : Type}

/-- The outcome of work that meets the given faults and ends in the given value: a fail-fast report
stops at the first fault, a collecting one takes them all. -/
def outcome (r : Report) (value : α) (faults : List SourceFault) :
    Except SourceFault (α × Report) :=
  match r.policy, faults with
  | .failFast, fault :: _ => .error fault
  | .failFast, [] => .ok (value, r)
  | .collect, faults => .ok (value, { r with faults := r.faults ++ faults })

theorem outcome_nil (r : Report) (value : α) : r.outcome value [] = .ok (value, r) := by
  obtain ⟨policy, faults⟩ := r
  cases policy <;> simp [outcome]

/-- A fail-fast report lets only work without faults come to an end. -/
theorem outcome_failFast_eq_ok_iff (value value' : α) (faults : List SourceFault) (r : Report) :
    outcome ⟨.failFast, []⟩ value faults = .ok (value', r) ↔
      faults = [] ∧ value' = value ∧ r = ⟨.failFast, []⟩ := by
  cases faults with
  | nil =>
    simp only [outcome, Except.ok.injEq, Prod.mk.injEq, true_and]
    exact and_congr eq_comm eq_comm
  | cons fault faults => simp [outcome]

/-- Work that comes to an end gives its value, under either policy. -/
theorem value_of_outcome (r r' : Report) (value value' : α) (faults : List SourceFault)
    (h : r.outcome value faults = .ok (value', r')) : value' = value := by
  unfold outcome at h
  split at h <;> cases h <;> rfl

/-- **One piece of work after another**: the faults of the second stand behind those of the
first. -/
theorem outcome_bind (r : Report) (a : α) (b : β) (fs gs : List SourceFault)
    (next : α × Report → Except SourceFault (β × Report))
    (hnext : ∀ r' : Report, next (a, r') = r'.outcome b gs) :
    (r.outcome a fs >>= next) = r.outcome b (fs ++ gs) := by
  obtain ⟨policy, faults⟩ := r
  cases policy with
  | failFast =>
    cases fs with
    | nil => exact hnext _
    | cons fault fs => rfl
  | collect =>
    show next (a, ⟨.collect, faults ++ fs⟩) = _
    rw [hnext]
    simp [outcome]

/-- Work whose value is only changed has the same faults. -/
theorem outcome_bind_ok (r : Report) (a : α) (b : β) (fs : List SourceFault)
    (next : α × Report → Except SourceFault (β × Report))
    (hnext : ∀ r' : Report, next (a, r') = .ok (b, r')) :
    (r.outcome a fs >>= next) = r.outcome b fs := by
  have h := outcome_bind r a b fs [] next fun r' => by rw [hnext, outcome_nil]
  rwa [List.append_nil] at h

/-- A fault before a piece of work stands in front of its faults. -/
theorem add_bind (r : Report) (fault : SourceFault) (b : β) (gs : List SourceFault)
    (next : Report → Except SourceFault (β × Report))
    (hnext : ∀ r' : Report, next r' = r'.outcome b gs) :
    (r.add fault >>= next) = r.outcome b (fault :: gs) := by
  obtain ⟨policy, faults⟩ := r
  cases policy with
  | failFast => rfl
  | collect =>
    show next ⟨.collect, faults ++ [fault]⟩ = _
    rw [hnext]
    simp [outcome]

end Report

namespace Token

/-! ## Tokens and lexical faults of a text -/

/-- The tokens of the text `cs` at the position `pos`, and the faults met on the way. -/
def lexed (interactive : Bool) (cs : List Char) (pos : Position) : List Token × List SourceFault :=
  let here := pos.after (cs.takeWhile isBlank)
  match _h : cs.dropWhile isBlank with
  | [] =>
    ([⟨.endOfFile, "", here⟩], if interactive then [.missingTerminator here.line] else [])
  | c :: tail =>
    let lexeme := Lexeme.cut interactive c tail
    if lexeme.kind = .endOfInput then ([⟨.endOfInput, String.ofList lexeme.text, here⟩], [])
    else
      let after := lexed interactive lexeme.rest (here.after lexeme.text)
      (if lexeme.kind = .comment then after.1
        else ⟨lexeme.kind, String.ofList lexeme.text, here⟩ :: after.1,
        if lexeme.kind = .invalid then .unexpectedCharacter here c :: after.2 else after.2)
termination_by cs.length
decreasing_by
  have hrest := Lexeme.cut_rest_length_le interactive c tail
  have hdrop := (List.dropWhile_suffix isBlank (l := cs)).length_le
  rw [_h, List.length_cons] at hdrop
  omega

/-- The tokens at the end of the text. -/
theorem lexed_of_dropWhile_eq_nil (interactive : Bool) (cs : List Char) (pos : Position)
    (h : cs.dropWhile isBlank = []) :
    lexed interactive cs pos =
      ([⟨.endOfFile, "", pos.after (cs.takeWhile isBlank)⟩],
        if interactive then [.missingTerminator (pos.after (cs.takeWhile isBlank)).line]
        else []) := by
  rw [lexed]
  split
  · rfl
  · rename_i heq
    rw [h] at heq
    cases heq

/-- The tokens from one lexeme on. -/
theorem lexed_of_dropWhile_eq_cons (interactive : Bool) (cs : List Char) (pos : Position)
    (c : Char) (tail : List Char) (h : cs.dropWhile isBlank = c :: tail) :
    lexed interactive cs pos =
      (let here := pos.after (cs.takeWhile isBlank)
      let lexeme := Lexeme.cut interactive c tail
      if lexeme.kind = .endOfInput then ([⟨.endOfInput, String.ofList lexeme.text, here⟩], [])
      else
        let after := lexed interactive lexeme.rest (here.after lexeme.text)
        (if lexeme.kind = .comment then after.1
          else ⟨lexeme.kind, String.ofList lexeme.text, here⟩ :: after.1,
          if lexeme.kind = .invalid then .unexpectedCharacter here c :: after.2 else after.2)) := by
  rw [lexed]
  split
  · rename_i heq
    rw [h] at heq
    cases heq
  · rename_i heq
    rw [h] at heq
    cases heq
    rfl

/-- Scanning at the end of the text. -/
theorem scan_of_dropWhile_eq_nil (interactive : Bool) (cs : List Char) (pos : Position)
    (report : Report) (h : cs.dropWhile isBlank = []) :
    scan interactive cs pos report = (do
      let report ← endReport interactive (pos.after (cs.takeWhile isBlank)) report
      return ([⟨.endOfFile, "", pos.after (cs.takeWhile isBlank)⟩], report)) := by
  rw [scan]
  split
  · rfl
  · rename_i heq
    rw [h] at heq
    cases heq

/-- Scanning one lexeme. -/
theorem scan_of_dropWhile_eq_cons (interactive : Bool) (cs : List Char) (pos : Position)
    (report : Report) (c : Char) (tail : List Char) (h : cs.dropWhile isBlank = c :: tail) :
    scan interactive cs pos report =
      (let here := pos.after (cs.takeWhile isBlank)
      let lexeme := Lexeme.cut interactive c tail
      if lexeme.kind = .endOfInput then
        .ok ([⟨.endOfInput, String.ofList lexeme.text, here⟩], report)
      else do
        let report ← lexemeReport lexeme.kind here c report
        let (tokens, report) ← scan interactive lexeme.rest (here.after lexeme.text) report
        if lexeme.kind = .comment then return (tokens, report)
        else return (⟨lexeme.kind, String.ofList lexeme.text, here⟩ :: tokens, report)) := by
  rw [scan]
  split
  · rename_i heq
    rw [h] at heq
    cases heq
  · rename_i heq
    rw [h] at heq
    cases heq
    rfl

/-- **Scanning is the outcome of its tokens and faults.** -/
theorem scan_eq_outcome (interactive : Bool) (cs : List Char) (pos : Position) (report : Report) :
    scan interactive cs pos report =
      report.outcome (lexed interactive cs pos).1 (lexed interactive cs pos).2 := by
  fun_induction lexed interactive cs pos generalizing report with
  | case1 cs pos here hnil =>
    rw [scan_of_dropWhile_eq_nil _ _ _ _ hnil, endReport]
    cases interactive with
    | false => exact (Report.outcome_nil _ _).symm
    | true => exact Report.add_bind _ _ _ [] _ fun r => (Report.outcome_nil r _).symm
  | case2 cs pos here c tail hcons lexeme hend =>
    rw [scan_of_dropWhile_eq_cons _ _ _ _ _ _ hcons]
    simp only
    rw [if_pos hend, Report.outcome_nil]
  | case3 cs pos here c tail hcons lexeme hend after ih =>
    rw [scan_of_dropWhile_eq_cons _ _ _ _ _ _ hcons]
    simp only
    rw [if_neg hend]
    -- the work behind the lexeme meets the same faults under whatever is reported by then
    have hrest : ∀ r : Report, (do
        let (tokens, r) ← scan interactive lexeme.rest (here.after lexeme.text) r
        if lexeme.kind = .comment then return (tokens, r)
        else return (⟨lexeme.kind, String.ofList lexeme.text, here⟩ :: tokens, r)) =
        r.outcome (if lexeme.kind = .comment then after.1
          else ⟨lexeme.kind, String.ofList lexeme.text, here⟩ :: after.1) after.2 := by
      intro r
      rw [ih r]
      apply Report.outcome_bind_ok
      intro r'
      dsimp only
      split <;> rfl
    unfold lexemeReport
    split
    · exact Report.add_bind _ _ _ _ _ hrest
    · exact hrest report

/-- Tokenizing is the outcome of the tokens and faults of the text. -/
theorem tokenize_eq_outcome (interactive : Bool) (text : String) (report : Report) :
    tokenize interactive text report =
      report.outcome (lexed interactive text.toList .start).1
        (lexed interactive text.toList .start).2 :=
  scan_eq_outcome _ _ _ _

end Token

namespace Program

/-! ## Instructions and faults of a token list -/

/-- The instructions of the lines of a token list, and the faults of the lines without one. -/
def linesRead (tokens : List Token) : Program × List SourceFault :=
  match _h : tokens.dropWhile Token.isNewline with
  | [] => ([], [])
  | t :: tail =>
    if t.isEnd then ([], [])
    else
      let after := linesRead (tail.dropWhile Token.inLine)
      match (Line.first (t :: tail)).read with
      | .ok i => (i :: after.1, after.2)
      | .error .reported => after
      | .error (.fault fault) => (after.1, fault :: after.2)
termination_by tokens.length
decreasing_by
  have hdrop := (List.dropWhile_suffix Token.isNewline (l := tokens)).length_le
  have hrest := (List.dropWhile_suffix Token.inLine (l := tail)).length_le
  rw [_h, List.length_cons] at hdrop
  omega

/-- No lines are left where no tokens but newlines are. -/
theorem linesRead_of_dropWhile_eq_nil (tokens : List Token)
    (h : tokens.dropWhile Token.isNewline = []) : linesRead tokens = ([], []) := by
  rw [linesRead]
  split
  · rfl
  · rename_i heq
    rw [h] at heq
    cases heq

/-- One line, and the lines behind it. -/
theorem linesRead_of_dropWhile_eq_cons (tokens : List Token) (t : Token) (tail : List Token)
    (h : tokens.dropWhile Token.isNewline = t :: tail) :
    linesRead tokens =
      if t.isEnd then ([], [])
      else
        let after := linesRead (tail.dropWhile Token.inLine)
        match (Line.first (t :: tail)).read with
        | .ok i => (i :: after.1, after.2)
        | .error .reported => after
        | .error (.fault fault) => (after.1, fault :: after.2) := by
  rw [linesRead]
  split
  · rename_i heq
    rw [h] at heq
    cases heq
  · rename_i heq
    rw [h] at heq
    cases heq
    rfl

/-- Reading lines up to the end of the tokens. -/
theorem readLines_of_dropWhile_eq_nil (tokens : List Token) (report : Report)
    (h : tokens.dropWhile Token.isNewline = []) : readLines tokens report = .ok ([], report) := by
  rw [readLines]
  split
  · rfl
  · rename_i heq
    rw [h] at heq
    cases heq

/-- Reading one line. -/
theorem readLines_of_dropWhile_eq_cons (tokens : List Token) (report : Report) (t : Token)
    (tail : List Token) (h : tokens.dropWhile Token.isNewline = t :: tail) :
    readLines tokens report =
      (if t.isEnd then .ok ([], report)
      else
        let rest := tail.dropWhile Token.inLine
        match (Line.first (t :: tail)).read with
        | .ok i => do
          let (p, report) ← readLines rest report
          return (i :: p, report)
        | .error .reported => readLines rest report
        | .error (.fault fault) => do
          let report ← report.add fault
          readLines rest report) := by
  rw [readLines]
  split
  · rename_i heq
    rw [h] at heq
    cases heq
  · rename_i heq
    rw [h] at heq
    cases heq
    rfl

/-- **Reading lines is the outcome of their instructions and faults.** -/
theorem readLines_eq_outcome (tokens : List Token) (report : Report) :
    readLines tokens report = report.outcome (linesRead tokens).1 (linesRead tokens).2 := by
  fun_induction linesRead tokens generalizing report with
  | case1 tokens hnil =>
    rw [readLines_of_dropWhile_eq_nil _ _ hnil, Report.outcome_nil]
  | case2 tokens t tail hcons hend =>
    rw [readLines_of_dropWhile_eq_cons _ _ _ _ hcons, if_pos hend, Report.outcome_nil]
  | case3 tokens t tail hcons hend after i hread ih =>
    rw [readLines_of_dropWhile_eq_cons _ _ _ _ hcons, if_neg hend]
    simp only [hread, ih]
    exact Report.outcome_bind_ok _ _ _ _ _ fun r => rfl
  | case4 tokens t tail hcons hend after hread ih =>
    rw [readLines_of_dropWhile_eq_cons _ _ _ _ hcons, if_neg hend]
    simp only [hread]
    exact ih report
  | case5 tokens t tail hcons hend after fault hread ih =>
    rw [readLines_of_dropWhile_eq_cons _ _ _ _ hcons, if_neg hend]
    simp only [hread]
    exact Report.add_bind _ _ _ _ _ ih

theorem hasExit_iff (p : Program) : p.hasExit = true ↔ .exit ∈ p := by
  rw [hasExit, List.any_eq_true]
  constructor
  · rintro ⟨i, hi, hexit⟩
    have hi' : i = .exit := by
      cases i <;> first | rfl | cases hexit
    exact hi' ▸ hi
  · intro h
    exact ⟨.exit, h, rfl⟩

/-- The faults of a token list, a missing `exit` at the end. -/
def parseFaults (tokens : List Token) : List SourceFault :=
  (linesRead tokens).2 ++ if (linesRead tokens).1.hasExit then [] else [.missingExit]

/-- There is nothing wrong with tokens whose lines are read and hold an `exit`. -/
theorem parseFaults_eq_nil_iff (tokens : List Token) :
    parseFaults tokens = [] ↔ (linesRead tokens).2 = [] ∧ (linesRead tokens).1.hasExit = true := by
  simp [parseFaults]

/-- **Parsing is the outcome of the instructions and faults of the tokens.** -/
theorem ofTokens_eq_outcome (tokens : List Token) (report : Report) :
    ofTokens tokens report = report.outcome (linesRead tokens).1 (parseFaults tokens) := by
  rw [ofTokens, readLines_eq_outcome, parseFaults]
  apply Report.outcome_bind
  intro r
  dsimp only
  split
  · exact (Report.outcome_nil _ _).symm
  · exact Report.add_bind _ _ _ [] _ fun r => (Report.outcome_nil r _).symm

/-! ## Assembling -/

/-- The tokens of a source text. -/
def tokensOf (interactive : Bool) (text : String) : List Token :=
  (Token.lexed interactive text.toList .start).1

/-- All faults of a source text in the order in which they are met: the lexical ones, then those of
the parser. -/
def allFaults (interactive : Bool) (text : String) : List SourceFault :=
  (Token.lexed interactive text.toList .start).2 ++ parseFaults (tokensOf interactive text)

/-- **Reading a text is the outcome of its instructions and faults.** -/
theorem read_eq_outcome (options : Options) (text : String) :
    read options text =
      Report.outcome ⟨options.policy, []⟩ (linesRead (tokensOf options.interactive text)).1
        (allFaults options.interactive text) := by
  rw [read, Token.tokenize_eq_outcome]
  exact Report.outcome_bind _ _ _ _ _ _ fun r => ofTokens_eq_outcome _ r

/-- Assembling up to the first fault. -/
theorem assembleWith_failFast (interactive : Bool) (text : String) :
    assembleWith ⟨.failFast, interactive⟩ text =
      match allFaults interactive text with
      | [] => .ok (linesRead (tokensOf interactive text)).1
      | fault :: _ => .error [fault] := by
  rw [assembleWith, read_eq_outcome]
  simp only [Report.outcome]
  cases allFaults interactive text <;> rfl

/-- Assembling with all faults collected. -/
theorem assembleWith_collect (interactive : Bool) (text : String) :
    assembleWith ⟨.collect, interactive⟩ text =
      match allFaults interactive text with
      | [] => .ok (linesRead (tokensOf interactive text)).1
      | fault :: faults => .error ((fault :: faults).mergeSort faultLe) := by
  rw [assembleWith, read_eq_outcome]
  simp only [Report.outcome, List.nil_append]
  cases allFaults interactive text <;> rfl

end Program

end NumStack
