import EventScript.Compile
import EventScript.Proofs.Lexing

/-!
# Positions of an offset

An offset between two characters has one line, whether the characters are walked, as for errors,
or the starts of the lines are searched, as for the places of instructions, and one column if its
line is ASCII up to it (`Source.readings_agree`).
The scanner counts lines as it goes. Its errors have the positions at which they start, except for
that of a comment without end, which has the line on which the text ends
(`TokenStream.errors_placed`).
-/

namespace EventScript

open List

namespace Source

/-- The position after a text, with columns counted in characters. -/
def charsAfter (pre : List Char) : Position := ⟨1 + pre.count '\n', 1 + (lastLine pre).length⟩

theorem lastLine_concat (pre : List Char) (c : Char) :
    lastLine (pre ++ [c]) = if c = '\n' then [] else lastLine pre ++ [c] := by
  by_cases hc : c = '\n' <;> simp [lastLine, hc]

theorem walk_eq (seen : List Char) : walk (byteLength (seen ++ pre)) (pre ++ post) (byteLength seen)
    (charsAfter seen) = charsAfter (seen ++ pre) := by
  induction pre generalizing seen with
  | nil =>
    rw [append_nil, nil_append]
    cases post with
    | nil => rfl
    | cons c post => exact if_pos (Nat.le_refl _)
  | cons c pre ih =>
    have hlt : byteLength seen < byteLength (seen ++ c :: pre) := by
      rw [byteLength_append]
      exact Nat.lt_add_of_pos_right (byteLength_pos nofun)
    rw [cons_append, walk, if_neg (Nat.not_le.2 hlt), append_cons, ← ih, byteLength_concat]
    congr 1
    by_cases hc : c = '\n' <;> simp [charsAfter, lastLine_concat, hc, Nat.add_assoc]

theorem startsAfter_append (i : Nat) :
    startsAfter (pre ++ post) i = startsAfter pre i ++ startsAfter post (i + byteLength pre) := by
  induction pre generalizing i with
  | nil => rfl
  | cons c pre ih =>
    simp only [cons_append, startsAfter, ih, byteLength, Nat.add_assoc]
    split <;> rfl

theorem mem_startsAfter (h : n ∈ startsAfter pre i) : i < n ∧ n ≤ i + byteLength pre := by
  induction pre generalizing i with
  | nil => cases h
  | cons c pre ih =>
    have := c.utf8Size_pos
    simp only [startsAfter] at h
    rw [byteLength]
    split at h
    · obtain rfl | h := mem_cons.1 h
      · omega
      · have := ih h; omega
    · have := ih h; omega

theorem length_startsAfter (i : Nat) : (startsAfter pre i).length = pre.count '\n' := by
  induction pre generalizing i with
  | nil => rfl
  | cons c pre ih => by_cases hc : c = '\n' <;> simp [startsAfter, hc, ih]

/-- The bytes of the last line stand behind its start. -/
theorem getLastD_startsAfter (pre : List Char)
    (h : start + byteLength (lastLine seen) = byteLength seen) :
    (startsAfter pre (byteLength seen)).getLastD start + byteLength (lastLine (seen ++ pre)) =
      byteLength (seen ++ pre) := by
  induction pre generalizing seen start with
  | nil => rwa [append_nil]
  | cons c pre ih =>
    rw [append_cons, startsAfter, ← byteLength_concat]
    split
    · rename_i hc
      rw [getLastD_cons]
      exact ih (by rw [lastLine_concat, if_pos hc]; rfl)
    · rename_i hc
      refine ih ?_
      rw [lastLine_concat, if_neg hc, byteLength_concat, byteLength_concat, ← h, Nat.add_assoc]

theorem position_eq (h : source.toList = pre ++ post) :
    position source (byteLength pre) = charsAfter pre := by
  rw [position, h]
  exact walk_eq []

end Source

open Source Compile Compile.Gen

theorem LineTable.position_eq (h : source.toList = pre ++ post) :
    (ofSource source).position (byteLength pre) = after pre := by
  have hbehind : (startsAfter post (byteLength pre)).takeWhile (· ≤ byteLength pre) = [] := by
    cases hs : startsAfter post (byteLength pre) with
    | nil => rfl
    | cons n _ =>
      have hn := (mem_startsAfter (hs ▸ mem_cons_self)).1
      exact takeWhile_cons_of_neg (by simpa using hn)
  have hupTo : (ofSource source).starts.takeWhile (· ≤ byteLength pre) =
      0 :: startsAfter pre 0 := by
    rw [ofSource, h, startsAfter_append, Nat.zero_add, takeWhile_cons_of_pos (by simp),
      takeWhile_append_of_pos, hbehind, append_nil]
    intro n hn
    simpa using (mem_startsAfter hn).2
  have hlast : _ = byteLength pre :=
    getLastD_startsAfter pre (show 0 + byteLength (lastLine []) = byteLength [] from rfl)
  rw [position, hupTo, Source.after, length_cons, length_startsAfter, getLastD_cons, Nat.add_comm 1,
    Nat.add_comm 1]
  congr 2
  exact Nat.sub_eq_of_eq_add' hlast.symm

/-- The error lies in a piece of the text. Its line is that on which the piece ends, and if that is
also the line on which it starts, then its position is that of the start. -/
def Blames (text : List Char) (d : Diagnostic) : Prop :=
  ∃ e pre w rest p, text = pre ++ (w ++ rest) ∧ d.cause = .lexical e ∧
    d.span.start = byteLength pre ∧ d.span.start ≤ d.span.stop ∧
    d.span.stop ≤ byteLength (pre ++ w) ∧ d.position = some p ∧
    p.line = (after pre).line + w.count '\n' ∧ ('\n' ∉ w → p = after pre) ∧
    if e = .unterminatedComment then rest = [] else '\n' ∉ w

namespace Lexer.Scanner

variable {s : Scanner}

theorem take_blames (h : s.Scanned text pre post) (hfits : reading.Fits s.arrays post)
    (hd : ∀ d ∈ s.errors, Blames text d) (htake : s.take? reading = some s') :
    ∀ d ∈ s'.errors, Blames text d := by
  obtain ⟨w, rest, rfl, -, hlength, hitem⟩ := hfits
  have hat := h.place
  have hat' := hat.skip
  unfold take? Cursor.move? at htake
  rw [hlength, h.left, split?_append] at htake
  obtain rfl := Option.some.inj htake
  dsimp only
  split
  · exact hd
  · rw [accept_errors]; exact hd
  rename_i problems heq
  rw [heq] at hitem
  intro d hd'
  obtain hd' | hd' := mem_append.1 hd'
  · obtain ⟨⟨e, size⟩, hp, rfl⟩ := mem_map.1 (mem_reverse.1 hd')
    obtain ⟨hsize, hline⟩ := hitem.2 _ hp
    refine ⟨e, pre, w, rest, _, h.parts, rfl, hat.offset, Nat.le_add_right _ _, ?_, rfl, ?_,
      fun hw => ?_, hline⟩
    · rw [byteLength_append, hat.offset]
      exact Nat.add_le_add_left hsize _
    · rw [Cursor.positionOf, hat'.line, count_append, Source.after, Nat.add_assoc]
    · rw [hat.offset]
      exact hat'.positionOf hw
  · exact hd d hd'

theorem steps_blames (h : s.Scanned text pre post) (hd : ∀ d ∈ s.errors, Blames text d)
    (hsteps : steps? n s = some s') : ∀ d ∈ s'.errors, Blames text d := by
  induction n generalizing s pre post with
  | zero => cases hsteps; exact hd
  | succ n ih =>
    rw [steps?] at hsteps
    cases post with
    | nil =>
      rw [step?_nil h] at hsteps
      exact ih h hd hsteps
    | cons c cs =>
      obtain ⟨reading, hstep, hfits⟩ := step?_cons h
      obtain ⟨_, _, _, htake, -, -, hscanned⟩ := h.take hfits
      rw [hstep, htake] at hsteps
      exact ih hscanned (take_blames h hfits hd htake) hsteps

end Lexer.Scanner

/-- Whatever is wrong with a text, the error lies within it and starts between two characters. It
has the position of its start, on the line that is found from its span, except for a comment without
end: that error reaches to the end of the text, has the line there, and is right just if the comment
stands on one line. -/
theorem TokenStream.errors_placed (h : TokenStream.ofSource source = .error ds) :
    ∀ d ∈ ds, ∃ e pre w rest p q, source.toList = pre ++ (w ++ rest) ∧ d.cause = .lexical e ∧
      d.span.start = byteLength pre ∧ d.span.start ≤ d.span.stop ∧
      d.span.stop ≤ byteLength source.toList ∧ d.position = some p ∧
      (d.locate source).position = some q ∧ q.line = 1 + pre.count '\n' ∧
      (e ≠ .unterminatedComment → p = after pre ∧ p.line = q.line) ∧
      (e = .unterminatedComment → rest = [] ∧ p.line = 1 + source.toList.count '\n' ∧
        (p.line = q.line ↔ '\n' ∉ w) ∧ ('\n' ∉ w → p = after pre)) := by
  obtain ⟨s, hsteps, -, hscan⟩ := Lexer.scan?_eq source.toList
  have hblames := Lexer.Scanner.steps_blames (Lexer.Scanner.start_scanned source.toList)
    (forall_mem_nil _) hsteps
  rw [ofSource, ofChars, hscan, Option.getD_some, Lexer.Scanner.result] at h
  split at h
  · cases h
  cases h
  intro d hd
  obtain ⟨e, pre, w, rest, p, htext, he, hstart, hle, hstop, hp, hline, hunbroken, hpiece⟩ :=
    hblames d (mem_reverse.1 hd)
  refine ⟨e, pre, w, rest, p, charsAfter pre, htext, he, hstart, hle, ?_, hp, ?_, rfl,
    fun hne => ?_, ?_⟩
  · rw [htext, ← append_assoc, byteLength_append]
    exact Nat.le_add_right_of_le hstop
  · rw [Diagnostic.locate, hstart, position_eq htext]
  · rw [if_neg hne] at hpiece
    obtain rfl := hunbroken hpiece
    exact ⟨rfl, rfl⟩
  · rintro rfl
    rw [if_pos rfl] at hpiece
    refine ⟨hpiece, ?_, ?_, hunbroken⟩
    · rw [hline, htext, hpiece, append_nil, count_append, Source.after, Nat.add_assoc]
    · rw [hline, ← count_eq_zero]
      exact Nat.add_eq_left

/-- A string that runs off its line behind a letter of two bytes, and an unknown letter. -/
theorem ragged_placed :
    TokenStream.ofSource "/*é*/ \"ab\n é" = .error [⟨.lexical .stringOffLine, ⟨7, 10⟩, some ⟨1, 8⟩⟩,
      ⟨.lexical (.unknownCharacter 'é'), ⟨12, 14⟩, some ⟨2, 2⟩⟩] ∧
    ∃ pre w rest, "/*é*/ \"ab\n é".toList = pre ++ (w ++ rest) ∧ 12 = byteLength pre ∧
      (⟨2, 2⟩ : Position) = after pre := by
  have hsource : TokenStream.ofSource "/*é*/ \"ab\n é" = .error [
      ⟨.lexical .stringOffLine, ⟨7, 10⟩, some ⟨1, 8⟩⟩,
      ⟨.lexical (.unknownCharacter 'é'), ⟨12, 14⟩, some ⟨2, 2⟩⟩] := by
    rw [TokenStream.ofSource_ofList]
    rfl
  obtain ⟨e, pre, w, rest, p, q, htext, he, hstart, -, -, hp, -, -, hright, -⟩ :=
    TokenStream.errors_placed hsource _ (mem_cons_of_mem _ mem_cons_self)
  cases he
  cases hp
  exact ⟨hsource, pre, w, rest, htext, hstart, (hright nofun).1⟩

/-- The error of a comment without end has the line on which the text ends, and not that on which
the comment starts. -/
theorem openComment_misplaced : ∃ d, TokenStream.ofSource "/*\n" = .error [d] ∧ d.span = ⟨0, 3⟩ ∧
    d.position = some ⟨2, 1⟩ ∧ (d.locate "/*\n").position = some ⟨1, 1⟩ := by
  rw [TokenStream.ofSource_ofList]
  exact ⟨_, rfl, rfl, rfl, rfl⟩

end EventScript
