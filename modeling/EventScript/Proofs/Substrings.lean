import EventScript.Api.Pure

/-!
# Parts of a text

`Text.substring_selects`: the library function for a part of a text gives the characters whose
places are selected, in their order. The function computes with words, and has no result where a sum
is none (`Text.substring?`); that never happens.
-/

namespace EventScript

open List Option

namespace Text

/-! ## Places -/

/-- The place is from `start` to `stop`, or, if `start` comes after `stop`, not between them. -/
def Selects (length : Nat) (start stop : Int32) (p : Nat) : Prop :=
  if fromEnd length start ≤ fromEnd length stop then
    fromEnd length start ≤ p ∧ p ≤ fromEnd length stop
  else p ≤ fromEnd length stop ∨ fromEnd length start ≤ p

instance : DecidablePred (Selects n start stop) := fun _ => inferInstanceAs (Decidable (ite ..))

variable {P : Nat → Prop} [DecidablePred P] {cs : List Char} {first last : Int}

/-- The characters whose places satisfy `P`, when the first has place `k`. -/
def pick (P : Nat → Prop) [DecidablePred P] (cs : List Char) (k : Nat) : List Char :=
  ((cs.zipIdx k).filter fun x => P x.2).map Prod.fst

theorem pick_cons (c : Char) (k : Nat) :
    pick P (c :: cs) k = if P k then c :: pick P cs (k + 1) else pick P cs (k + 1) := by
  by_cases h : P k <;> simp [pick, zipIdx_cons, h]

theorem pick_between (h : ∀ p : Nat, P p ↔ first ≤ p ∧ p ≤ last) (k : Nat) :
    pick P cs k = (cs.take (last + 1 - k).toNat).drop (first - k).toNat := by
  induction cs generalizing k with
  | nil => simp [pick]
  | cons c cs ih =>
    rw [pick_cons, ih]
    by_cases hlast : k ≤ last
    · have hstop : (last + 1 - k).toNat = (last + 1 - ↑(k + 1)).toNat + 1 := by omega
      rw [hstop, take_succ_cons]
      by_cases hfirst : first ≤ k
      · have hstart : (first - k).toNat = 0 ∧ (first - ↑(k + 1)).toNat = 0 := by omega
        rw [if_pos ((h k).2 ⟨hfirst, hlast⟩), hstart.1, hstart.2]
        rfl
      · have hstart : (first - k).toNat = (first - ↑(k + 1)).toNat + 1 := by omega
        rw [if_neg (mt (h k).1 (by omega)), hstart, drop_succ_cons]
    · have hstop : (last + 1 - k).toNat = 0 ∧ (last + 1 - ↑(k + 1)).toNat = 0 := by omega
      rw [if_neg (mt (h k).1 (by omega)), hstop.1, hstop.2]
      simp

theorem pick_outside (hlt : last < first) (h : ∀ p : Nat, P p ↔ p ≤ last ∨ first ≤ p) (k : Nat) :
    pick P cs k = cs.take (last + 1 - k).toNat ++ cs.drop (first - k).toNat := by
  induction cs generalizing k with
  | nil => simp [pick]
  | cons c cs ih =>
    rw [pick_cons, ih]
    by_cases hfirst : first ≤ k
    · have hstart : (first - k).toNat = 0 ∧ (first - ↑(k + 1)).toNat = 0 := by omega
      have hstop : (last + 1 - k).toNat = 0 ∧ (last + 1 - ↑(k + 1)).toNat = 0 := by omega
      rw [if_pos ((h k).2 (.inr hfirst)), hstart.1, hstart.2, hstop.1, hstop.2]
      rfl
    · have hstart : (first - k).toNat = (first - ↑(k + 1)).toNat + 1 := by omega
      rw [hstart, drop_succ_cons]
      by_cases hlast : k ≤ last
      · have hstop : (last + 1 - k).toNat = (last + 1 - ↑(k + 1)).toNat + 1 := by omega
        rw [if_pos ((h k).2 (.inl hlast)), hstop]
        rfl
      · have hstop : (last + 1 - k).toNat = 0 ∧ (last + 1 - ↑(k + 1)).toNat = 0 := by omega
        rw [if_neg (mt (h k).1 (by omega)), hstop.1, hstop.2]
        rfl

/-! ## Words -/

def slice (cs : List Char) (first last : Int) : List Char :=
  (cs.take (last + 1).toNat).drop first.toNat

/-- `substring?` on numbers of any size. -/
def substring (s : String) (start stop : Int32) : String :=
  let cs := s.toList
  let first := fromEnd cs.length start
  let last := fromEnd cs.length stop
  if first ≤ last then String.ofList (slice cs first last)
  else String.ofList (slice cs 0 last ++ slice cs first (cs.length - 1))

theorem ofInt?_eq (h : -2147483648 ≤ n ∧ n ≤ 2147483647) :
    ∃ i, Word.ofInt? n = some i ∧ i.toInt = n :=
  ⟨_, if_pos h, Int32.toInt_ofInt_of_le h.1 (Int.lt_add_one_of_le h.2)⟩

variable {length : Int32}

theorem fromEnd?_eq (hlength : length.toInt = cs.length) (i : Int32) :
    ∃ j, fromEnd? length i = some j ∧ j.toInt = fromEnd cs.length i := by
  have := i.le_toInt
  have := length.toInt_lt
  unfold fromEnd? fromEnd
  split
  · rw [hlength]
    exact ofInt?_eq (by omega)
  · exact ⟨i, rfl, rfl⟩

theorem slice?_eq (hlength : length.toInt = cs.length) (first : Int32) {last : Int32}
    (hlast : last.toInt ≠ 2147483647) :
    slice? cs length first last = some (slice cs first.toInt last.toInt) := by
  have := last.le_toInt
  have := last.toInt_lt
  obtain ⟨stop, hstop, heq⟩ := ofInt?_eq (n := last.toInt + 1) (by omega)
  have hstart : (max first.toInt 0).toNat = first.toInt.toNat := by omega
  have hend : (min (last.toInt + 1) cs.length).toNat = min (last.toInt + 1).toNat cs.length := by
    omega
  rw [slice?, hstop, slice]
  simp only [bind_eq_bind, bind_some, heq, hlength, hstart, hend]
  rw [← take_take, take_length]
  rfl

theorem substring?_eq (hs : s.length < 2147483648) (hstop : stop ≠ 2147483647) :
    substring? s start stop = some (substring s start stop) := by
  rw [← String.length_toList] at hs
  obtain ⟨length, hsome, hlength⟩ := ofInt?_eq (n := s.toList.length) (by omega)
  obtain ⟨first, hfirst, hfirst'⟩ := fromEnd?_eq hlength start
  obtain ⟨last, hlast, hlast'⟩ := fromEnd?_eq hlength stop
  obtain ⟨final, hfinal, hfinal'⟩ := ofInt?_eq (n := s.toList.length - 1) (by omega)
  have hne : stop.toInt ≠ 2147483647 := fun h => hstop (Int32.toInt_inj.1 h)
  have hin : last.toInt ≠ 2147483647 := by rw [hlast', fromEnd]; split <;> omega
  have hfinal'' : final.toInt ≠ 2147483647 := by omega
  have hzero : (0 : Int32).toInt = 0 := rfl
  rw [substring?, substring]
  simp only [hsome, hfirst, hlast, hlength, hfinal, bind_eq_bind, bind_some,
    slice?_eq hlength _ hin, slice?_eq hlength _ hfinal'', hfirst', hlast', hfinal', hzero]
  split <;> rfl

theorem substring_toList :
    (substring s start stop).toList = pick (Selects s.length start stop) s.toList 0 := by
  rw [← String.length_toList, substring]
  split
  · rename_i hle
    rw [String.toList_ofList, pick_between (P := Selects _ _ _) fun p => iff_of_eq (if_pos hle)]
    simp [slice]
  · rename_i hle
    rw [String.toList_ofList,
      pick_outside (P := Selects _ _ _) (Int.not_le.1 hle) fun p => iff_of_eq (if_neg hle)]
    simp [slice]

end Text

/-- The part of a text from `start` to `stop`, both counted from the end when they are negative, has
the characters that are selected, in the order of the text. No sum on the way leaves the range of
words. -/
theorem Text.substring_selects (s : String) (start stop : Int32) (hs : s.length < 2147483648)
    (hstop : stop ≠ 2147483647) :
    ∃ r, ApiFunction.pure? "llGetSubString" [.string s, .integer start, .integer stop] =
        some (.string r) ∧ substring? s start stop = some r ∧
      r.toList = pick (Selects s.length start stop) s.toList 0 := by
  have hsome : substring? s start stop = _ := substring?_eq hs hstop
  refine ⟨substring s start stop, ?_, hsome, substring_toList⟩
  show some (Value.string ((substring? s start stop).getD "")) = _
  rw [hsome]
  rfl

theorem wrapped_selects : "größe".length < 2147483648 ∧ (-4 : Int32) ≠ 2147483647 ∧
    ApiFunction.pure? "llGetSubString" [.string "größe", .integer 3, .integer (-4)] =
      some (.string "grße") := by
  obtain ⟨r, hr, -, hpick⟩ :=
    Text.substring_selects "größe" 3 (-4) (by decide) (by decide)
  refine ⟨by decide, by decide, hr.trans ?_⟩
  rw [String.toList_inj.1 (hpick.trans (by decide : _ = "grße".toList))]

end EventScript
