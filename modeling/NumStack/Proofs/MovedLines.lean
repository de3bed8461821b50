import NumStack.Proofs.CorrespondingTokens
import NumStack.Proofs.WholeLines

/-!
# Lines moved down

A source text that stands further down gives the same tokens, instructions and faults, each with its
line moved by as much and its column as it was. Nothing but the lines of positions depends on where
a text stands.
-/

namespace NumStack

/-! ## Moving down -/

/-- The position the given number of lines further down. -/
def Position.down (n : Nat) (p : Position) : Position := ⟨p.line + n, p.column⟩

/-- The next position further down is the next position, moved down. -/
theorem Position.next_down (n : Nat) (p : Position) (c : Char) :
    (p.down n).next c = (p.next c).down n := by
  unfold Position.next
  split
  · exact congrArg (Position.mk · 1) (Nat.add_right_comm p.line n 1)
  · rfl

theorem Position.after_down (n : Nat) (p : Position) (cs : List Char) :
    (p.down n).after cs = (p.after cs).down n := by
  induction cs generalizing p with
  | nil => rfl
  | cons c cs ih => rw [after_cons, after_cons, next_down, ih]

/-- The token the given number of lines further down. -/
def Token.down (n : Nat) (t : Token) : Token := ⟨t.kind, t.text, t.position.down n⟩

/-- The fault the given number of lines further down. -/
def SourceFault.down (n : Nat) : SourceFault → SourceFault
  | unexpectedCharacter p found => unexpectedCharacter (p.down n) found
  | unknownInstruction p word => unknownInstruction (p.down n) word
  | expectedKind p found => expectedKind (p.down n) found
  | expectedNumber p found => expectedNumber (p.down n) found
  | unexpectedToken p expected found => unexpectedToken (p.down n) expected found
  | invalidOperand p cause => invalidOperand (p.down n) cause
  | missingExit => missingExit
  | missingTerminator line => missingTerminator (line + n)

theorem SourceFault.line?_down (n : Nat) (fault : SourceFault) :
    (fault.down n).line? = fault.line?.map (· + n) := by
  cases fault <;> rfl

/-! ## Scanning at two positions -/

/-- **Where a text stands does not matter.** Scanned at two positions, it gives the same tokens and
faults one by one, up to their positions: whatever relates the two positions, and keeps relating
them character by character, relates the positions of the tokens and faults. -/
theorem Token.lexed_forall₂ {R : Position → Position → Prop} {T : Token → Token → Prop}
    {F : SourceFault → SourceFault → Prop} (hnext : ∀ p q c, R p q → R (p.next c) (q.next c))
    (htoken : ∀ p q kind text, R p q → T ⟨kind, text, p⟩ ⟨kind, text, q⟩)
    (hcharacter : ∀ p q c, R p q → F (.unexpectedCharacter p c) (.unexpectedCharacter q c))
    (hterminator : ∀ p q, R p q → F (.missingTerminator p.line) (.missingTerminator q.line))
    (interactive : Bool) (cs : List Char) (p q : Position) (h : R p q) :
    List.Forall₂ T (lexed interactive cs p).1 (lexed interactive cs q).1 ∧
      List.Forall₂ F (lexed interactive cs p).2 (lexed interactive cs q).2 := by
  have hafter : ∀ (cs : List Char) p q, R p q → R (p.after cs) (q.after cs) := by
    intro cs
    induction cs with
    | nil => exact fun p q h => h
    | cons c cs ih => exact fun p q h => ih _ _ (hnext p q c h)
  fun_induction lexed interactive cs p generalizing q with
  | case1 cs p here hnil =>
    rw [lexed_of_dropWhile_eq_nil _ _ q hnil]
    have hhere := hafter (cs.takeWhile isBlank) p q h
    refine ⟨.cons (htoken _ _ _ _ hhere) .nil, ?_⟩
    cases interactive with
    | false => exact .nil
    | true => exact .cons (hterminator _ _ hhere) .nil
  | case2 cs p here c tail hcons lexeme hend =>
    have hlexed := (lexed_of_dropWhile_eq_cons interactive cs q c tail hcons).trans (if_pos hend)
    rw [hlexed]
    exact ⟨.cons (htoken _ _ _ _ (hafter _ p q h)) .nil, .nil⟩
  | case3 cs p here c tail hcons lexeme hend after ih =>
    have hlexed := (lexed_of_dropWhile_eq_cons interactive cs q c tail hcons).trans (if_neg hend)
    have hhere := hafter (cs.takeWhile isBlank) p q h
    obtain ⟨htokens, hfaults⟩ := ih _ (hafter lexeme.text _ _ hhere)
    rw [hlexed]
    constructor
    · show List.Forall₂ T (if lexeme.kind = .comment then _ else _)
        (if lexeme.kind = .comment then _ else _)
      split
      · exact htokens
      · exact .cons (htoken _ _ _ _ hhere) htokens
    · show List.Forall₂ F (if lexeme.kind = .invalid then _ else _)
        (if lexeme.kind = .invalid then _ else _)
      split
      · exact .cons (hcharacter _ _ _ hhere) hfaults
      · exact hfaults

/-- **Scanning a text further down** moves its tokens and faults. -/
theorem Token.lexed_down (interactive : Bool) (cs : List Char) (pos : Position) (n : Nat) :
    lexed interactive cs (pos.down n) =
      ((lexed interactive cs pos).1.map (down n),
        (lexed interactive cs pos).2.map (SourceFault.down n)) := by
  have hnext : ∀ (p q : Position) c, p.down n = q → (p.next c).down n = q.next c := by
    rintro p _ c rfl
    exact (Position.next_down n p c).symm
  obtain ⟨htokens, hfaults⟩ := lexed_forall₂ (R := fun p q => p.down n = q)
    (T := fun t u => t.down n = u) (F := fun f g => f.down n = g) hnext
    (by rintro p _ kind text rfl; rfl) (by rintro p _ c rfl; rfl) (by rintro p _ rfl; rfl)
    interactive cs pos (pos.down n) rfl
  exact Prod.ext ((forall₂_eq_iff_map _ _ _).1 htokens).symm
    ((forall₂_eq_iff_map _ _ _).1 hfaults).symm

/-! ## Reading lines further down -/

/-- A token and a fault correspond to themselves further down. -/
theorem correspondence_down (n : Nat) :
    Correspondence (fun t u => t.down n = u) (fun f g => f.down n = g) where
  kind := by
    rintro t _ rfl
    exact .inl rfl
  text := by
    rintro t _ rfl _
    rfl
  unknownInstruction := by
    rintro t _ rfl _
    rfl
  expectedKind := by
    rintro t _ rfl
    rfl
  expectedNumber := by
    rintro t _ rfl
    rfl
  unexpectedToken := by
    rintro t _ rfl _
    rfl
  invalidOperand := by
    rintro t _ rfl _
    rfl

/-- **Reading lines further down** gives the same instructions and moves the faults. -/
theorem Program.linesRead_down (n : Nat) (tokens : List Token) (h : Token.Stopped tokens) :
    linesRead (tokens.map (Token.down n)) =
      ((linesRead tokens).1, (linesRead tokens).2.map (SourceFault.down n)) := by
  obtain ⟨hprogram, hfaults⟩ := (correspondence_down n).linesRead tokens _
    ((forall₂_eq_iff_map _ _ _).2 rfl) h
  exact Prod.ext hprogram.symm ((forall₂_eq_iff_map _ _ _).1 hfaults).symm

end NumStack
