import Mathlib.Data.List.Forall2
import NumStack.Proofs.Grammar

/-!
# Corresponding tokens

Two token lists may differ in the positions of their tokens, or in the marker that ends them, and
still be read in the same way. What has to agree is the kind of each token, up to the choice of the
end marker, and the text of each token but the last. Then the instructions are the same, and where a
line of one list is faulty, the corresponding line of the other is faulty in the corresponding way.
-/

namespace NumStack

/-- A correspondence `T` of tokens and `F` of faults: corresponding tokens have one kind and one
text, unless both are end markers, and the faults found at corresponding tokens correspond. -/
structure Correspondence (T : Token → Token → Prop) (F : SourceFault → SourceFault → Prop) :
    Prop where
  kind : ∀ {t u}, T t u → t.kind = u.kind ∨ (t.isEnd = true ∧ u.isEnd = true)
  text : ∀ {t u}, T t u → t.isEnd = false → t.text = u.text
  unknownInstruction : ∀ {t u}, T t u → t.isEnd = false →
    F (.unknownInstruction t.position t.text) (.unknownInstruction u.position u.text)
  expectedKind : ∀ {t u}, T t u →
    F (.expectedKind t.position t.describe) (.expectedKind u.position u.describe)
  expectedNumber : ∀ {t u}, T t u →
    F (.expectedNumber t.position t.describe) (.expectedNumber u.position u.describe)
  unexpectedToken : ∀ {t u}, T t u → ∀ expected,
    F (.unexpectedToken t.position expected t.describe)
      (.unexpectedToken u.position expected u.describe)
  invalidOperand : ∀ {t u}, T t u → ∀ cause,
    F (.invalidOperand t.position cause) (.invalidOperand u.position cause)

/-- The readings of two lines correspond: both give a value, or both a fault, or both stop at what
was already reported. -/
inductive Alike (F : SourceFault → SourceFault → Prop) {α β : Type} (A : α → β → Prop) :
    Except LineFault α → Except LineFault β → Prop where
  | ok (a : α) (b : β) (h : A a b) : Alike F A (.ok a) (.ok b)
  | reported : Alike F A (.error .reported) (.error .reported)
  | fault (f g : SourceFault) (h : F f g) : Alike F A (.error (.fault f)) (.error (.fault g))

/-- One reading after another. -/
theorem Alike.bind {F : SourceFault → SourceFault → Prop} {α β γ δ : Type} {A : α → β → Prop}
    {B : γ → δ → Prop} {x : Except LineFault α} {y : Except LineFault β}
    {next : α → Except LineFault γ} {next' : β → Except LineFault δ} (h : Alike F A x y)
    (hnext : ∀ a b, A a b → Alike F B (next a) (next' b)) :
    Alike F B (x >>= next) (y >>= next') := by
  cases h with
  | ok a b h => exact hnext a b h
  | reported => exact .reported
  | fault f g h => exact .fault f g h

/-! ## Corresponding lines -/

/-- Two lines of corresponding tokens, stopped by corresponding tokens. -/
structure Line.Corresponds (T : Token → Token → Prop) (l m : Line) : Prop where
  tokens : List.Forall₂ T l.tokens m.tokens
  stop : T l.stop m.stop

namespace Line.Corresponds

variable {T : Token → Token → Prop} {l m : Line}

theorem current (h : l.Corresponds T m) : T l.current m.current := by
  obtain ⟨ts, stop⟩ := l
  obtain ⟨us, stop'⟩ := m
  obtain ⟨htokens, hstop⟩ := h
  cases htokens with
  | nil => exact hstop
  | cons htu _ => exact htu

theorem next (h : l.Corresponds T m) : l.next.Corresponds T m.next := by
  obtain ⟨ts, stop⟩ := l
  obtain ⟨us, stop'⟩ := m
  obtain ⟨htokens, hstop⟩ := h
  cases htokens with
  | nil => exact ⟨.nil, hstop⟩
  | cons _ hrest => exact ⟨hrest, hstop⟩

end Line.Corresponds

namespace Correspondence

variable {T : Token → Token → Prop} {F : SourceFault → SourceFault → Prop}

/-- What is told by the kind of a token, and not by the choice of the end marker, is told alike of
corresponding tokens. -/
theorem congr (hTF : Correspondence T F) {α : Type} (f : TokenKind → α)
    (hf : f .endOfFile = f .endOfInput) {t u : Token} (h : T t u) : f t.kind = f u.kind := by
  have hend : ∀ v : Token, v.isEnd = true → f v.kind = f .endOfInput := by
    intro v hv
    rcases Bool.or_eq_true_iff.1 hv with hv | hv
    · rw [of_decide_eq_true hv, hf]
    · rw [of_decide_eq_true hv]
  rcases hTF.kind h with hkind | ⟨ht, hu⟩
  · rw [hkind]
  · rw [hend t ht, hend u hu]

section

variable (hTF : Correspondence T F) {t u : Token} {l m : Line}

include hTF

theorem inLine_eq (h : T t u) : t.inLine = u.inLine :=
  hTF.congr (fun k => (Token.mk k "" .start).inLine) rfl h

theorem isNewline_eq (h : T t u) : t.isNewline = u.isNewline :=
  hTF.congr (fun k => (Token.mk k "" .start).isNewline) rfl h

theorem isEnd_eq (h : T t u) : t.isEnd = u.isEnd :=
  hTF.congr (fun k => (Token.mk k "" .start).isEnd) rfl h

theorem isNumber_eq (h : T t u) : t.isNumber = u.isNumber :=
  hTF.congr (fun k => (Token.mk k "" .start).isNumber) rfl h

/-- Corresponding tokens are of a given kind alike, if it is not that of an end marker. -/
theorem kind_eq_iff (h : T t u) (k : TokenKind) (hk : (Token.mk k "" .start).isEnd = false) :
    t.kind = k ↔ u.kind = k := by
  have hne : ∀ k', (Token.mk k' "" .start).isEnd = true → k' ≠ k := by
    rintro k' hk' rfl
    rw [hk] at hk'
    cases hk'
  have hcongr := hTF.congr (fun k' => decide (k' = k))
    ((decide_eq_false (hne .endOfFile rfl)).trans (decide_eq_false (hne .endOfInput rfl)).symm) h
  exact decide_eq_decide.1 hcongr

/-- Faults that correspond, found at corresponding tokens. -/
theorem atToken {α β : Type} {A : α → β → Prop} {f g : SourceFault} (h : T t u) (hfg : F f g) :
    Alike F A (.error (.atToken t f)) (.error (.atToken u g)) := by
  have hinvalid := hTF.kind_eq_iff h .invalid rfl
  unfold LineFault.atToken
  by_cases ht : t.kind = .invalid
  · rw [if_pos ht, if_pos (hinvalid.1 ht)]
    exact .reported
  · rw [if_neg ht, if_neg (fun hu => ht (hinvalid.2 hu))]
    exact .fault f g hfg

/-! ## Reading corresponding lines -/

theorem unexpected {α β : Type} {A : α → β → Prop} (h : l.Corresponds T m) (expected : String) :
    Alike F A (.error (l.unexpected expected)) (.error (m.unexpected expected)) :=
  hTF.atToken h.current (hTF.unexpectedToken h.current expected)

/-- Reading numbers. -/
theorem number (h : l.Corresponds T m) :
    Alike F (fun x y => T x.1 y.1 ∧ x.1.isNumber = true ∧ x.2.Corresponds T y.2)
      l.number m.number := by
  unfold Line.number
  rw [← hTF.isNumber_eq h.current]
  split
  · rename_i hnumber
    exact .ok _ _ ⟨h.current, hnumber, h.next⟩
  · exact hTF.atToken h.current (hTF.expectedNumber h.current)

/-- Reading arguments. -/
theorem argument (h : l.Corresponds T m) :
    Alike F (fun x y => T x.1 y.1 ∧ x.1.isNumber = true ∧ x.2.Corresponds T y.2)
      l.argument m.argument := by
  have hleft := hTF.kind_eq_iff h.current .leftParen rfl
  unfold Line.argument
  by_cases hl : l.current.kind = .leftParen
  · rw [if_pos hl, if_pos (hleft.1 hl)]
    apply (hTF.number h.next).bind
    rintro ⟨t, rest⟩ ⟨u, rest'⟩ ⟨htu, hnumber, hrest⟩
    have hright := hTF.kind_eq_iff hrest.current .rightParen rfl
    dsimp only
    by_cases hr : rest.current.kind = .rightParen
    · rw [if_pos hr, if_pos (hright.1 hr)]
      exact .ok _ _ ⟨htu, hnumber, hrest.next⟩
    · rw [if_neg hr, if_neg (fun hr' => hr (hright.2 hr'))]
      exact hTF.unexpected hrest "')'"
  · rw [if_neg hl, if_neg (fun hl' => hl (hleft.2 hl'))]
    exact hTF.number h

/-- Reading values. -/
theorem value (h : l.Corresponds T m) :
    Alike F (fun x y => x.1 = y.1 ∧ x.2.Corresponds T y.2) l.value m.value := by
  have hend : ∀ n : Line, n.current.isEnd = true →
      n.value =
        .error (.atToken n.current (.expectedKind n.current.position n.current.describe)) := by
    intro n hn
    rcases Bool.or_eq_true_iff.1 hn with hk | hk <;> rw [Line.value, of_decide_eq_true hk]
  rcases hTF.kind h.current with hkind | ⟨hl, hm⟩
  · unfold Line.value
    rw [← hkind]
    split
    · apply (hTF.argument h.next).bind
      rintro ⟨t, rest⟩ ⟨u, rest'⟩ ⟨htu, hnumber, hrest⟩
      dsimp only
      rw [← hTF.text htu (t.isEnd_of_inLine (t.inLine_of_isNumber hnumber))]
      cases Operand.ofLiteral _ t.text with
      | ok v => exact .ok _ _ ⟨rfl, hrest⟩
      | error cause => exact .fault _ _ (hTF.invalidOperand htu cause)
    · exact hTF.atToken h.current (hTF.expectedKind h.current)
  · rw [hend l hl, hend m hm]
    exact hTF.atToken h.current (hTF.expectedKind h.current)

/-- Reading what follows an opcode. -/
theorem arguments (o : Opcode) (h : l.Corresponds T m) :
    Alike F (fun x y => x.1 = y.1 ∧ x.2.Corresponds T y.2) (l.arguments o) (m.arguments o) := by
  cases o with
  | push | assert =>
    apply (hTF.value h).bind
    rintro ⟨v, rest⟩ ⟨w, rest'⟩ ⟨hvw, hrest⟩
    obtain rfl : v = w := hvw
    exact .ok _ _ ⟨rfl, hrest⟩
  | pop | dump | arith | print | exit => exact .ok _ _ ⟨rfl, h⟩

/-- Reading instructions. -/
theorem instruction (h : l.Corresponds T m) :
    Alike F (fun x y => x.1 = y.1 ∧ x.2.Corresponds T y.2) l.instruction m.instruction := by
  have hend : ∀ n : Line, n.current.isEnd = true →
      n.instruction = .error (n.unexpected "instruction") := by
    intro n hn
    rcases Bool.or_eq_true_iff.1 hn with hk | hk <;> rw [Line.instruction, of_decide_eq_true hk]
  have hword : ∀ k, l.current.kind = k → (Token.mk k "" .start).isEnd = false →
      F (.unknownInstruction l.current.position l.current.text)
        (.unknownInstruction m.current.position m.current.text) := by
    rintro k rfl hk
    exact hTF.unknownInstruction h.current hk
  rcases hTF.kind h.current with hkind | ⟨hl, hm⟩
  · unfold Line.instruction
    rw [← hkind]
    split
    · exact hTF.arguments _ h.next
    · exact .fault _ _ (hword _ ‹_› rfl)
    · exact .fault _ _ (hword _ ‹_› rfl)
    · exact hTF.unexpected h "instruction"
  · rw [hend l hl, hend m hm]
    exact hTF.unexpected h "instruction"

/-- **Corresponding lines are read alike**: as the same instruction, or with corresponding
faults. -/
theorem read (h : l.Corresponds T m) : Alike F Eq l.read m.read := by
  apply (hTF.instruction h).bind
  rintro ⟨i, rest⟩ ⟨j, rest'⟩ ⟨hij, hrest⟩
  obtain rfl : i = j := hij
  have hfinished : rest.isFinished = rest'.isFinished := by
    unfold Line.isFinished
    rw [hTF.inLine_eq hrest.current]
    exact congrArg _ (decide_eq_decide.2 (hTF.kind_eq_iff hrest.current .invalid rfl))
  dsimp only
  rw [← hfinished]
  split
  · exact .ok _ _ rfl
  · exact hTF.unexpected hrest "end of line"

end

end Correspondence

/-! ## Stopped lines -/

namespace Token

/-- Every line of the tokens is stopped by one of them. -/
def Stopped (tokens : List Token) : Prop := ∀ t ∈ tokens.getLast?, t.inLine = false

namespace Stopped

variable {tokens : List Token}

/-- The lines at the end of the tokens are stopped too. -/
theorem of_suffix {rest : List Token} (h : Stopped tokens) (hrest : rest <:+ tokens) :
    Stopped rest := by
  obtain ⟨front, rfl⟩ := hrest
  intro t ht
  apply h t
  rw [List.getLast?_append, Option.mem_def.1 ht]
  rfl

theorem exists_stop (h : Stopped tokens) (hne : tokens ≠ []) :
    ∃ t rest, tokens.dropWhile inLine = t :: rest := by
  apply List.exists_cons_of_ne_nil
  intro hnil
  have hlast := h (tokens.getLast hne) (List.getLast?_eq_some_getLast hne)
  rw [List.dropWhile_eq_nil_iff.1 hnil _ (List.getLast_mem hne)] at hlast
  cases hlast

end Stopped

end Token

/-! ## Reading corresponding token lists -/

/-- Related lists have related runs in front, and related rests, where the class of the run is told
alike of related elements. -/
theorem forall₂_run {α : Type} {R : α → α → Prop} {p : α → Bool}
    (hp : ∀ a b, R a b → p a = p b) {as bs : List α} (h : List.Forall₂ R as bs) :
    List.Forall₂ R (as.takeWhile p) (bs.takeWhile p) ∧
      List.Forall₂ R (as.dropWhile p) (bs.dropWhile p) := by
  induction h with
  | nil => exact ⟨.nil, .nil⟩
  | cons hab hrest ih =>
    rename_i a b as bs
    rw [List.takeWhile_cons, List.takeWhile_cons, List.dropWhile_cons, List.dropWhile_cons,
      ← hp a b hab]
    split
    · exact ⟨.cons hab ih.1, ih.2⟩
    · exact ⟨.nil, .cons hab hrest⟩

namespace Correspondence

variable {T : Token → Token → Prop} {F : SourceFault → SourceFault → Prop}

/-- The first lines of corresponding token lists correspond, and so do the lines behind them. -/
theorem first (hTF : Correspondence T F) {ts us : List Token} (h : List.Forall₂ T ts us)
    (hstopped : Token.Stopped ts) (hne : ts ≠ []) :
    (Line.first ts).Corresponds T (Line.first us) := by
  obtain ⟨htake, hdrop⟩ := forall₂_run (fun t u htu => hTF.inLine_eq htu) h
  obtain ⟨t, rest, hts⟩ := hstopped.exists_stop hne
  refine ⟨htake, ?_⟩
  rw [Line.first, Line.first]
  rw [hts] at hdrop ⊢
  generalize us.dropWhile Token.inLine = stops at hdrop
  cases hdrop with
  | cons htu _ => exact htu

/-- **Corresponding token lists are read alike**: they give the same instructions, and their faults
correspond one by one. -/
theorem linesRead (hTF : Correspondence T F) (ts us : List Token) (h : List.Forall₂ T ts us)
    (hstopped : Token.Stopped ts) :
    (Program.linesRead ts).1 = (Program.linesRead us).1 ∧
      List.Forall₂ F (Program.linesRead ts).2 (Program.linesRead us).2 := by
  have hnewlines : ∀ {ts us}, List.Forall₂ T ts us →
      List.Forall₂ T (ts.dropWhile Token.isNewline) (us.dropWhile Token.isNewline) :=
    fun h => (forall₂_run (fun t u htu => hTF.isNewline_eq htu) h).2
  -- the first line of the other list, and the lines behind it
  have hcons : ∀ {ts us : List Token} {t : Token} {tail : List Token}, List.Forall₂ T ts us →
      Token.Stopped ts → ts.dropWhile Token.isNewline = t :: tail →
      ∃ u tail', us.dropWhile Token.isNewline = u :: tail' ∧ t.isEnd = u.isEnd ∧
        Alike F Eq (Line.first (t :: tail)).read (Line.first (u :: tail')).read ∧
        List.Forall₂ T (tail.dropWhile Token.inLine) (tail'.dropWhile Token.inLine) := by
    intro ts us t tail h hstopped hts
    have hline := hnewlines h
    rw [hts] at hline
    obtain ⟨u, tail', htu, htail, hus⟩ := List.forall₂_cons_left_iff.1 hline
    refine ⟨u, tail', hus, hTF.isEnd_eq htu, ?_, ?_⟩
    · have hsuffix : t :: tail <:+ ts := hts ▸ List.dropWhile_suffix _
      have hstop := hstopped.of_suffix hsuffix
      exact hTF.read (hTF.first (.cons htu htail) hstop (List.cons_ne_nil _ _))
    · exact (forall₂_run (fun t u htu => hTF.inLine_eq htu) htail).2
  fun_induction Program.linesRead ts generalizing us with
  | case1 ts hnil =>
    have hus := hnewlines h
    rw [hnil, List.forall₂_nil_left_iff] at hus
    rw [Program.linesRead_of_dropWhile_eq_nil us hus]
    exact ⟨rfl, .nil⟩
  | case2 ts t tail hts hend =>
    obtain ⟨u, tail', hus, hisEnd, -, -⟩ := hcons h hstopped hts
    rw [Program.linesRead_of_dropWhile_eq_cons us u tail' hus, ← hisEnd, if_pos hend]
    exact ⟨rfl, .nil⟩
  | case3 ts t tail hts hend after i hread ih =>
    obtain ⟨u, tail', hus, hisEnd, halike, hrest⟩ := hcons h hstopped hts
    rw [Program.linesRead_of_dropWhile_eq_cons us u tail' hus, ← hisEnd, if_neg hend]
    rw [hread] at halike
    generalize (Line.first (u :: tail')).read = x at halike
    cases halike with
    | ok i j hij =>
      subst hij
      obtain ⟨hprogram, hfaults⟩ := ih _ hrest (hstopped.of_suffix (Token.rest_suffix hts))
      exact ⟨congrArg (List.cons i) hprogram, hfaults⟩
  | case4 ts t tail hts hend after hread ih =>
    obtain ⟨u, tail', hus, hisEnd, halike, hrest⟩ := hcons h hstopped hts
    rw [Program.linesRead_of_dropWhile_eq_cons us u tail' hus, ← hisEnd, if_neg hend]
    rw [hread] at halike
    generalize (Line.first (u :: tail')).read = x at halike
    cases halike with
    | reported => exact ih _ hrest (hstopped.of_suffix (Token.rest_suffix hts))
  | case5 ts t tail hts hend after fault hread ih =>
    obtain ⟨u, tail', hus, hisEnd, halike, hrest⟩ := hcons h hstopped hts
    rw [Program.linesRead_of_dropWhile_eq_cons us u tail' hus, ← hisEnd, if_neg hend]
    rw [hread] at halike
    generalize (Line.first (u :: tail')).read = x at halike
    cases halike with
    | fault f g hfg =>
      obtain ⟨hprogram, hfaults⟩ := ih _ hrest (hstopped.of_suffix (Token.rest_suffix hts))
      exact ⟨hprogram, .cons hfg hfaults⟩

end Correspondence

theorem forall₂_eq_iff_map {α β : Type} (f : α → β) (as : List α) (bs : List β) :
    List.Forall₂ (fun a b => f a = b) as bs ↔ as.map f = bs := by
  rw [← List.forall₂_map_left_iff (R := Eq), List.forall₂_eq_eq_eq]

end NumStack
