import Firestorm.Proofs.Token.Coverage

/-!
# The faults of a text

Behind a fault the rest of its line is skipped, and the text goes on as if it started on the next
line. So the faults of a text are its first one and then those of the text behind the newline that
ends the line of the first, and they stand one behind the other.

## Main definitions

* `Located.shift`.

## Main results

* `Lexer.faults_shift`, `Lexer.exists_of_run_eq_error`.
* `tokenize_recovers`: the faults of a text are its first one and those of the text behind its line.
-/

namespace Firestorm

/-- A value that stands in a text in front of which so many bytes have been put. -/
def Located.shift {α : Type} (n : Nat) (x : Located α) : Located α := ⟨n + x.offset, x.value⟩

namespace Lexer

variable {offset : Nat} {cs : List Char}

/-! ### Texts that have been moved -/

/-- A step in a text that has been moved. -/
def Step.shift (n : Nat) : Step → Step
  | .done => .done
  | .token t next rest => .token (t.shift n) (n + next) rest
  | .fault e rest => .fault (e.shift n) rest

theorem integer_shift (n start value offset : Nat) (cs : List Char) :
    integer (n + start) value (n + offset) cs = (integer start value offset cs).shift n := by
  induction cs generalizing value offset with
  | nil => rfl
  | cons c cs ih =>
    simp only [integer]
    split_ifs
    · rw [Nat.add_assoc]
      exact ih _ _
    · rfl
    · rfl

theorem quoted_shift (n start : Nat) (cs : List Char) :
    quoted (n + start) cs = (quoted start cs).shift n := by
  unfold quoted
  dsimp only
  cases cs.dropWhile (· != '"') with
  | nil => simp only [Step.shift, Located.shift, Nat.add_assoc]
  | cons d rest => simp only [Step.shift, Located.shift, Nat.add_assoc]

theorem character_shift (n start : Nat) (cs : List Char) :
    character (n + start) cs = (character start cs).shift n := by
  cases cs with
  | nil => rfl
  | cons c cs =>
    simp only [character]
    split_ifs
    · split <;> rfl
    · rfl

theorem lexeme_shift (n start : Nat) (c : Char) (cs : List Char) :
    lexeme (n + start) c cs = (lexeme start c cs).shift n := by
  unfold lexeme
  cases symbol? (c :: cs) with
  | some read =>
    obtain ⟨t, width, rest⟩ := read
    simp only [Step.shift, Located.shift, Nat.add_assoc]
  | none =>
    dsimp only
    split_ifs
    · exact quoted_shift n start cs
    · exact character_shift n start cs
    · simp only [Step.shift, Located.shift, Nat.add_assoc]
    · exact integer_shift n start 0 start (c :: cs)
    · rfl

theorem step_shift (n offset : Nat) (cs : List Char) :
    step (n + offset) cs = (step offset cs).shift n := by
  rcases exists_gap cs with hfinal | ⟨gap, c, rest, rfl, hgap, hblank, hslash⟩
  · rw [step_of_finalGap hfinal, step_of_finalGap hfinal]
    rfl
  · rw [step_of_gap hgap hblank hslash, step_of_gap hgap hblank hslash, Nat.add_assoc, lexeme_shift]

theorem skipLine_shift (n offset : Nat) (cs : List Char) :
    skipLine (n + offset) cs = (n + (skipLine offset cs).1, (skipLine offset cs).2) := by
  induction cs generalizing offset with
  | nil => rfl
  | cons c cs ih =>
    simp only [skipLine, Nat.add_assoc]
    split_ifs
    · rfl
    · exact ih _

theorem faults_run_of_token {next : Nat} {rest : List Char} {t : Located Token}
    (h : step offset cs = .token t next rest) :
    faults (run offset cs) = faults (run next rest) := by
  rw [run_of_token h]
  cases run next rest <;> rfl

/-- What is read does not depend on where a text starts. -/
theorem faults_shift (n offset : Nat) (cs : List Char) :
    faults (run (n + offset) cs) = (faults (run offset cs)).map (Located.shift n) := by
  induction hlength : cs.length using Nat.strong_induction_on generalizing offset cs with
  | _ length ih =>
    subst hlength
    have hshift := step_shift n offset cs
    cases hstep : step offset cs with
    | done =>
      rw [hstep] at hshift
      rw [run_of_done hstep, run_of_done hshift]
      rfl
    | token t next rest =>
      rw [hstep] at hshift
      rw [faults_run_of_token hstep, faults_run_of_token hshift]
      exact ih _ (rest_lt_of_step hstep) next rest rfl
    | fault e rest =>
      rw [hstep] at hshift
      rw [run_of_fault hstep, run_of_fault hshift, Located.shift, skipLine_shift]
      simp only [faults, List.map_cons, List.cons.injEq]
      exact ⟨rfl, ih _ (skipLine_lt_of_step hstep _) _ _ rfl⟩

/-! ### The first fault -/

theorem skipLine_append {line : List Char} (h : '\n' ∉ line) (offset : Nat) (rest : List Char) :
    skipLine offset (line ++ '\n' :: rest) = (offset + Text.byteSize (line ++ ['\n']), rest) := by
  induction line generalizing offset with
  | nil => rfl
  | cons c line ih =>
    obtain ⟨hc, hline⟩ := not_or.1 (List.mem_cons.not.1 h)
    rw [List.cons_append, skipLine, if_neg (Ne.symm hc), ih hline, List.cons_append,
      Text.byteSize_cons, Nat.add_assoc]

theorem skipLine_of_notMem (h : '\n' ∉ cs) (offset : Nat) : (skipLine offset cs).2 = [] := by
  induction cs generalizing offset with
  | nil => rfl
  | cons c cs ih =>
    obtain ⟨hc, hcs⟩ := not_or.1 (List.mem_cons.not.1 h)
    rw [skipLine, if_neg (Ne.symm hc)]
    exact ih hcs _

/-- The first fault of a text that has one, and the faults of the text behind its line. -/
theorem exists_of_run_eq_error {errors : List (Located LexError)}
    (h : run offset cs = .error errors) :
    ∃ first front behind, cs = front ++ behind ∧ first.offset = offset + Text.byteSize front ∧
      (('\n' ∉ behind ∧ errors = [first]) ∨
      ∃ line rest, behind = line ++ '\n' :: rest ∧ '\n' ∉ line ∧ errors = first ::
        faults (run (offset + Text.byteSize (front ++ line ++ ['\n'])) rest)) := by
  induction hn : cs.length using Nat.strong_induction_on generalizing offset cs with
  | _ n ih =>
    have hdescribes := describes_step offset cs
    cases hstep : step offset cs with
    | done =>
      rw [run_of_done hstep] at h
      cases h
    | token t next rest =>
      have hlt := rest_lt_of_step hstep
      rw [hstep] at hdescribes
      obtain ⟨gap, w, rfl, -, -, -, -, rfl⟩ := hdescribes
      have hrest : run (offset + Text.byteSize (gap ++ w)) rest = .error errors := by
        rw [run_of_token hstep] at h
        exact Fallible.except_map_eq_error.1 h
      obtain ⟨first, front, behind, rfl, hoffset, hlater⟩ := ih _ (hn ▸ hlt) hrest rfl
      refine ⟨first, gap ++ w ++ front, behind, by simp, ?_, ?_⟩
      · rw [hoffset, Text.byteSize_append (gap ++ w), Nat.add_assoc]
      · simpa only [List.append_assoc, Text.byteSize_append, Nat.add_assoc] using hlater
    | fault e rest =>
      rw [run_of_fault hstep] at h
      cases h
      rw [hstep] at hdescribes
      obtain ⟨front, rfl, hoffset⟩ := hdescribes
      refine ⟨e, front, rest, rfl, hoffset, ?_⟩
      by_cases hends : '\n' ∈ rest
      · obtain ⟨line, behind, rfl, hline⟩ := List.eq_append_cons_of_mem hends
        refine .inr ⟨line, behind, rfl, hline, ?_⟩
        rw [skipLine_append hline, hoffset, List.append_assoc, Text.byteSize_append front,
          ← Nat.add_assoc]
      · refine .inl ⟨hends, ?_⟩
        rw [skipLine_of_notMem hends, run_of_done rfl]
        rfl

/-- Faults stand one behind the other, each in front of a character or at the end of the text. -/
theorem ordered_of_run_eq_error {errors : List (Located LexError)}
    (h : run offset cs = .error errors) : (errors.map Located.offset).Pairwise (· < ·) ∧
      ∀ e ∈ errors, ∃ front behind,
        cs = front ++ behind ∧ e.offset = offset + Text.byteSize front := by
  induction hn : cs.length using Nat.strong_induction_on generalizing offset cs errors with
  | _ n ih =>
    obtain ⟨first, front, behind, rfl, hoffset, ⟨-, rfl⟩ | ⟨line, rest, rfl, -, rfl⟩⟩ :=
      exists_of_run_eq_error h
    · refine ⟨List.pairwise_singleton _ _, fun e he => ?_⟩
      cases List.mem_singleton.1 he
      exact ⟨front, behind, rfl, hoffset⟩
    · have hlt : rest.length < n := by
        rw [← hn]
        simp only [List.length_append, List.length_cons]
        omega
      have hfirst : ∃ front' behind', front ++ (line ++ '\n' :: rest) = front' ++ behind' ∧
        first.offset = offset + Text.byteSize front' := ⟨front, _, rfl, hoffset⟩
      cases hrest : run (offset + Text.byteSize (front ++ line ++ ['\n'])) rest with
      | ok tokens =>
        refine ⟨List.pairwise_singleton _ _, fun e he => ?_⟩
        cases List.mem_singleton.1 he
        exact hfirst
      | error later =>
        obtain ⟨hordered, hplaces⟩ := ih _ hlt hrest rfl
        have hnewline : '\n'.utf8Size = 1 := rfl
        refine ⟨List.pairwise_cons.2 ⟨?_, hordered⟩, List.forall_mem_cons.2 ⟨hfirst, ?_⟩⟩
        · rw [List.forall_mem_map]
          intro e he
          obtain ⟨front', behind', -, hlater⟩ := hplaces e he
          simp only [Text.byteSize_append, Text.byteSize_cons, hnewline] at hlater
          omega
        · intro e he
          obtain ⟨front', behind', rfl, hlater⟩ := hplaces e he
          refine ⟨front ++ line ++ ['\n'] ++ front', behind', by simp, ?_⟩
          rw [hlater, Text.byteSize_append (front ++ line ++ ['\n']), Nat.add_assoc]

end Lexer

open Lexer in
/-- The faults of a text that cannot be read stand one behind the other, in front of characters or
at the end of the text. They are the first one and, moved to their places, all those of the text
behind the first newline that does not stand in front of it. There are no more if there is no such
newline, or if that text can be read. -/
theorem tokenize_recovers {text : String} {errors : List (Located LexError)}
    (h : tokenize text = .error errors) : (errors.map Located.offset).Pairwise (· < ·) ∧
    (∀ e ∈ errors, e.offset ≤ text.utf8ByteSize ∧
      ∃ before behind, text = before ++ behind ∧ e.offset = before.utf8ByteSize) ∧
    ∃ first later before behind, errors = first :: later ∧ text = before ++ behind ∧
      first.offset = before.utf8ByteSize ∧
      (('\n' ∉ behind.toList ∧ later = []) ∨
      ∃ line rest, behind = line ++ "\n" ++ rest ∧ '\n' ∉ line.toList ∧
        later = (faults (tokenize rest)).map
          (Located.shift (before ++ line ++ "\n").utf8ByteSize)) := by
  have hsize : ∀ cs, (String.ofList cs).utf8ByteSize = Text.byteSize cs := fun cs => by
    rw [← byteSize_toList, String.toList_ofList]
  have hsplit : ∀ front behind, text.toList = front ++ behind →
      text = String.ofList front ++ String.ofList behind := fun front behind htext => by
    rw [← String.ofList_append, ← htext, String.ofList_toList]
  obtain ⟨hordered, hplaces⟩ := ordered_of_run_eq_error h
  refine ⟨hordered, fun e he => ?_, ?_⟩
  · obtain ⟨front, behind, htext, hoffset⟩ := hplaces e he
    rw [hsplit front behind htext, String.utf8ByteSize_append, hsize, hsize, hoffset, Nat.zero_add]
    exact ⟨Nat.le_add_right _ _, String.ofList front, String.ofList behind, rfl, (hsize front).symm⟩
  · obtain ⟨first, front, behind, htext, hoffset, hlater⟩ := exists_of_run_eq_error h
    rw [Nat.zero_add] at hoffset
    rcases hlater with ⟨hline, rfl⟩ | ⟨line, rest, rfl, hline, rfl⟩
    · refine ⟨first, [], String.ofList front, String.ofList behind, rfl, hsplit front behind htext,
        ?_, .inl ?_⟩
      · rw [hsize, hoffset]
      · rw [String.toList_ofList]
        exact ⟨hline, rfl⟩
    · refine ⟨first, _, String.ofList front, _, rfl, hsplit front _ htext, ?_,
        .inr ⟨String.ofList line, String.ofList rest, ?_, ?_, ?_⟩⟩
      · rw [hsize, hoffset]
      · exact String.toList_inj.1 (by simp)
      · rw [String.toList_ofList]
        exact hline
      · have hn : (String.ofList front ++ String.ofList line ++ "\n").utf8ByteSize =
            Text.byteSize (front ++ line ++ ['\n']) := by
          rw [← hsize, String.ofList_append, String.ofList_append]
        rw [hn, tokenize, String.toList_ofList, ← faults_shift, Nat.zero_add, Nat.add_zero]

/-- A text with four faults: a character of two bytes in a literal, a newline where a literal should
end, a digit too many, and a string that the end of the text ends. -/
def faultyText : String := "a 'é' @\nb 'c\n99999999999999999999 @\nd \"e"

open Lexer in
/-- The newline that is itself a fault ends its line, and the characters behind a fault are
skipped. -/
theorem tokenize_recovers_faultyText :
    tokenize faultyText =
      .error [⟨3, .badCharLiteral⟩, ⟨13, .badCharLiteral⟩, ⟨32, .intOverflow⟩,
        ⟨41, .unterminatedString⟩] ∧
    ∃ before line rest, faultyText = before ++ (line ++ "\n" ++ rest) ∧ before.utf8ByteSize = 3 ∧
      '\n' ∉ line.toList ∧ (faults (tokenize rest)).map
        (Located.shift (before ++ line ++ "\n").utf8ByteSize) =
        [⟨13, .badCharLiteral⟩, ⟨32, .intOverflow⟩, ⟨41, .unterminatedString⟩] := by
  have h : tokenize faultyText =
      .error [⟨3, .badCharLiteral⟩, ⟨13, .badCharLiteral⟩, ⟨32, .intOverflow⟩,
        ⟨41, .unterminatedString⟩] := by
    decide +kernel
  obtain ⟨-, -, first, later, before, behind, herrors, htext, hoffset, hlater⟩ :=
    tokenize_recovers h
  cases herrors
  rcases hlater with ⟨-, hnone⟩ | ⟨line, rest, rfl, hline, hlater⟩
  · cases hnone
  · exact ⟨h, before, line, rest, htext, hoffset.symm, hline, hlater.symm⟩

end Firestorm
