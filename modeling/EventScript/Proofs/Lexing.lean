import EventScript.Token.Lexer

/-!
# A text and its tokens

Lexing covers the text. The scanner moves over bytes, but what it looks for is ASCII, so wherever it
stops a character ends (`Source.split_bytes`) and the text can be cut. `Blank` and `Spells` say what a
piece of text is that is left out, and what text a token stands for; both look at the text behind the
piece, since a comment, a word or a mark goes as far as it can. `Gap` strings pieces together that
are left out, among them the words that switch the array extension on, and `Laid` lays tokens over a
text. One step of the scanner fits (`Scanned.step`), so the tokens of a text are laid over it
(`TokenStream.ofSource_covers`).
-/

namespace EventScript

open List

namespace Source

theorem byteLength_append : byteLength (a ++ b) = byteLength a + byteLength b := by
  induction a with
  | nil => simp [byteLength]
  | cons c a ih => simp only [cons_append, byteLength, ih]; omega

theorem byteLength_concat (pre : List Char) (c : Char) :
    byteLength (pre ++ [c]) = byteLength pre + c.utf8Size := byteLength_append

theorem byteLength_pos (h : w ≠ []) : 0 < byteLength w := by
  cases w with
  | nil => exact absurd rfl h
  | cons c w => exact Nat.add_pos_left c.utf8Size_pos _

theorem split?_append : split? (byteLength w) (w ++ rest) = some (w, rest) := by
  induction w with
  | nil => cases rest <;> rfl
  | cons c w ih =>
    have hpos : c.utf8Size + byteLength w ≠ 0 := Nat.ne_of_gt (byteLength_pos (cons_ne_nil c w))
    rw [cons_append, byteLength, split?, if_neg hpos, if_pos (Nat.le_add_right ..),
      Nat.add_sub_cancel_left, ih]
    rfl

/-! ## Bytes -/

theorem bytes_append : bytes (a ++ b) = bytes a ++ bytes b := flatMap_append

theorem bytes_cons : bytes (c :: w) = bytes [c] ++ bytes w := bytes_append (a := [c])

theorem length_bytes (w : List Char) : (bytes w).length = byteLength w := by
  induction w with
  | nil => rfl
  | cons c w ih =>
    rw [bytes_cons, length_append, ih, byteLength, bytes, flatMap_singleton, length_map,
      String.length_utf8EncodeChar]

theorem bytes_ne_nil (h : w ≠ []) : bytes w ≠ [] := by
  intro hnil
  have hpos := byteLength_pos h
  rw [← length_bytes, hnil] at hpos
  exact Nat.lt_irrefl 0 hpos

theorem toNat_ofUInt8 (n : Nat) : (Char.ofUInt8 (.ofNat n)).toNat = n % 256 := rfl

/-- A character of ASCII is one byte. -/
theorem bytes_ascii (hc : c.toNat < 128) : bytes [c] = [c] := by
  have hle : c.val.toNat ≤ 0x7f := Nat.le_of_lt_succ hc
  rw [bytes, flatMap_singleton, String.utf8EncodeChar, if_pos hle, map_singleton, singleton_inj]
  refine Char.toNat_inj.1 ?_
  rw [toNat_ofUInt8]
  exact Nat.mod_eq_of_lt (by omega)

/-- The bytes of other characters are not ASCII. -/
theorem bytes_wide (hc : ¬ c.toNat < 128) : ∀ d ∈ bytes [c], ¬ d.toNat < 128 := by
  have hlt : ¬ c.val.toNat ≤ 0x7f := fun h => hc (Nat.lt_succ_of_le h)
  rw [bytes, flatMap_singleton, String.utf8EncodeChar, if_neg hlt, forall_mem_map]
  split
  · simp only [forall_mem_cons, toNat_ofUInt8]
    refine ⟨?_, ?_, forall_mem_nil _⟩ <;> omega
  split
  · simp only [forall_mem_cons, toNat_ofUInt8]
    refine ⟨?_, ?_, ?_, forall_mem_nil _⟩ <;> omega
  · simp only [forall_mem_cons, toNat_ofUInt8]
    refine ⟨?_, ?_, ?_, ?_, forall_mem_nil _⟩ <;> omega

theorem bytes_of_ascii (hw : ∀ c ∈ w, c.toNat < 128) : bytes w = w := by
  induction w with
  | nil => rfl
  | cons c w ih =>
    rw [forall_mem_cons] at hw
    rw [bytes_cons, bytes_ascii hw.1, ih hw.2]
    rfl

theorem byteLength_ascii (h : ∀ c ∈ w, c.toNat < 128) : byteLength w = w.length := by
  rw [← length_bytes, bytes_of_ascii h]

theorem mem_bytes (hc : c.toNat < 128) (h : c ∈ w) : c ∈ bytes w := by
  obtain ⟨a, b, rfl⟩ := append_of_mem h
  rw [bytes_append, bytes_cons, bytes_ascii hc]
  exact mem_append_right _ mem_cons_self

/-- Where a byte of ASCII is, a character starts, and so does one behind it. -/
theorem split_bytes (h : bytes text = u ++ c :: rest') (hc : c.toNat < 128) :
    ∃ w rest, text = w ++ c :: rest ∧ u = bytes w ∧ rest' = bytes rest := by
  induction text generalizing u with
  | nil => cases u <;> cases h
  | cons d text ih =>
    rw [bytes_cons] at h
    have hbehind {v : List Byte} (hv : bytes text = v ++ c :: rest') :
        ∃ w rest, d :: text = w ++ c :: rest ∧ bytes [d] ++ v = bytes w ∧ rest' = bytes rest := by
      obtain ⟨w, rest, rfl, rfl, hrest⟩ := ih hv
      exact ⟨d :: w, rest, rfl, bytes_cons.symm, hrest⟩
    obtain ⟨v, rfl, hv⟩ | ⟨v, hd, hv⟩ := append_eq_append_iff.1 h
    · exact hbehind hv
    cases v with
    | nil =>
      rw [append_nil] at hd
      obtain rfl := hd
      simpa using hbehind (v := []) hv.symm
    | cons e v =>
      obtain ⟨rfl, rfl⟩ := cons.inj hv
      have hascii : d.toNat < 128 := Decidable.byContradiction fun hwide =>
        bytes_wide hwide c (hd ▸ mem_append_right _ mem_cons_self) hc
      rw [bytes_ascii hascii] at hd
      cases u with
      | nil =>
        obtain ⟨rfl, rfl⟩ := cons.inj hd
        exact ⟨[], text, rfl, rfl, rfl⟩
      | cons _ u => cases u <;> cases hd

/-- A character ends before a byte of ASCII and at the end. -/
theorem split_before_ascii (h : bytes text = w' ++ rest')
    (hrest : ∀ c ∈ rest'.head?, c.toNat < 128) :
    ∃ w rest, text = w ++ rest ∧ w' = bytes w ∧ rest' = bytes rest := by
  cases rest' with
  | nil => exact ⟨text, [], (append_nil _).symm, by rw [h, append_nil], rfl⟩
  | cons c rest' =>
    have hc := hrest c rfl
    obtain ⟨w, rest, rfl, rfl, rfl⟩ := split_bytes h hc
    exact ⟨w, c :: rest, rfl, rfl, by rw [bytes_cons, bytes_ascii hc]; rfl⟩

/-- Bytes of ASCII at the start of a text are characters. -/
theorem starts_of_ascii (h : bytes text = w ++ rest') (hw : ∀ c ∈ w, c.toNat < 128) :
    ∃ rest, text = w ++ rest ∧ rest' = bytes rest := by
  induction w generalizing text with
  | nil => exact ⟨text, rfl, h.symm⟩
  | cons c w ih =>
    rw [forall_mem_cons] at hw
    obtain ⟨v, r, rfl, hv, hr⟩ := split_bytes (u := []) h hw.1
    obtain rfl : v = [] := Decidable.byContradiction fun hne => bytes_ne_nil hne hv.symm
    obtain ⟨rest, rfl, rfl⟩ := ih hr.symm hw.2
    exact ⟨rest, rfl, rfl⟩

/-! ## Lines -/

def lastLine (pre : List Char) : List Char := (pre.reverse.takeWhile (· ≠ '\n')).reverse

/-- The position after a text, with columns counted in bytes. -/
def after (pre : List Char) : Position := ⟨1 + pre.count '\n', 1 + byteLength (lastLine pre)⟩

theorem lastLine_append (h : '\n' ∉ w) : lastLine (pre ++ w) = lastLine pre ++ w := by
  have hw : ∀ c ∈ w.reverse, decide (c ≠ '\n') = true := fun c hc =>
    decide_eq_true fun heq => h (heq ▸ mem_reverse.1 hc)
  rw [lastLine, reverse_append, takeWhile_append_of_pos hw, reverse_append,
    reverse_reverse, lastLine]

end Source

namespace Lexer

open Source

/-! ## Pieces of text -/

/-- A piece that is left out: a blank, a comment up to the end of its line, or one up to the first
end mark behind its start. -/
inductive Blank : (w rest : List Char) → Prop
  | space : c ≤ ' ' → Blank [c] rest
  | line : '\n' ∉ w → (∀ c ∈ rest.head?, c = '\n') → Blank ('/' :: '/' :: w) rest
  | block : ¬ ['*', '/'] <:+: w ++ ['*'] → Blank ('/' :: '*' :: w ++ ['*', '/']) rest

/-- The text of a token, and what stands behind it. No longer mark fits where one stands, and a
word ends where its characters do. -/
inductive Spells (on : Bool) : Token → (w rest : List Char) → Prop
  | numeral : (Numeral.split (bytes (w ++ rest))).token = .ok t →
    (Numeral.split (bytes (w ++ rest))).length = byteLength w → (∀ c ∈ w.head?, c.isDigit) →
    w ≠ [] → '\n' ∉ w → Spells on t w rest
  | string : stringBody false (bytes (body ++ '"' :: rest)) = (byteLength body, .closed) →
    '\n' ∉ body →
    Spells on (.string (String.ofList (unescape body))) ('"' :: body ++ ['"']) rest
  | word : isNameStart c → (∀ d ∈ w, isNameChar d) → (∀ d ∈ rest.head?, isNameChar d = false) →
    Spells on (.ofWord on (String.ofList (c :: w))) (c :: w) rest
  | mark : (∀ m' : Mark, m'.text.toList <+: m.text.toList ++ rest →
      m'.text.length ≤ m.text.length) →
    Spells on (.mark m) m.text.toList rest

/-- The text that is left out before `rest`. The array extension is on behind the words that switch
it on, and in between there may be more that is left out. -/
inductive Gap : (on : Bool) → (text rest : List Char) → (on' : Bool) → Prop
  | none : Gap on text text on
  | blank : Gap on text (w ++ rest) on' → Blank w rest → Gap on text rest on'
  | pragma : Gap on text ("XMROption".toList ++ r₁) on₁ → Gap on₁ r₁ ("arrays".toList ++ r₂) on₂ →
    Gap on₂ r₂ (';' :: rest) on₃ → Gap on text rest true

/-- The tokens that are laid over a text up to `rest`, the last first. -/
inductive Laid (text : List Char) : (rest : List Char) → (on : Bool) → (found : List Lexeme) → Prop
  | start : Laid text text false []
  | token : Laid text r on found → Gap on r (w ++ rest) on' → Spells on' t w rest →
    text = pre ++ (w ++ rest) →
    Laid text rest on' (⟨t, ⟨byteLength pre, byteLength (pre ++ w)⟩, after pre⟩ :: found)

variable {text pre w rest r cs : List Char}

/-! ## What is read -/

/-- What is wrong lies in the piece, which stands on one line unless it is a comment without end. -/
def Concerns (w rest : List Char) (p : LexicalError × Nat) : Prop :=
  p.2 ≤ byteLength w ∧ if p.1 = .unterminatedComment then rest = [] else '\n' ∉ w

/-- A reading tells a piece of the text from what stands behind it. -/
def Reading.Fits (on : Bool) (text : List Char) (reading : Reading) : Prop :=
  ∃ w rest, text = w ++ rest ∧ w ≠ [] ∧ reading.length = byteLength w ∧
    match reading.item with
    | .gap => Blank w rest
    | .token t => Spells on t w rest
    | .faulty problems => problems ≠ [] ∧ ∀ p ∈ problems, Concerns w rest p

theorem commentLength?_eq (h : commentLength? cs = some n) :
    ∃ w rest, cs = w ++ '*' :: '/' :: rest ∧ n = w.length + 2 ∧ ¬ ['*', '/'] <:+: w ++ ['*'] := by
  fun_induction commentLength? cs generalizing n with
  | case1 => cases h
  | case2 rest => cases h; exact ⟨[], rest, rfl, rfl, by decide⟩
  | case3 c cs hne ih =>
    obtain ⟨k, hk, rfl⟩ := Option.map_eq_some_iff.1 h
    obtain ⟨w, rest, rfl, rfl, hw⟩ := ih hk
    refine ⟨c :: w, rest, rfl, rfl, fun hin => ?_⟩
    obtain ⟨tail, htail⟩ | hin := infix_cons_iff.1 hin
    · -- an end mark at the very start is what the other case of the function is for
      cases w with
      | nil => cases htail
      | cons d w => cases htail; exact hne _ rfl rfl
    · exact hw hin

theorem readComment_fits (cs : List Char) :
    (readComment (bytes cs)).Fits on ('/' :: '*' :: cs) := by
  unfold readComment
  cases h : commentLength? (bytes cs) with
  | none =>
    have hsize : byteLength cs + 2 = byteLength ('/' :: '*' :: cs) := by
      show _ = 1 + (1 + byteLength cs)
      omega
    rw [length_bytes, hsize]
    exact ⟨_, [], (append_nil _).symm, nofun, rfl, nofun,
      forall_mem_singleton.2 ⟨Nat.le_refl _, rfl⟩⟩
  | some n =>
    obtain ⟨w', rest', hcs, rfl, hw⟩ := commentLength?_eq h
    obtain ⟨w, r, rfl, rfl, hr⟩ := split_bytes hcs (by decide)
    obtain ⟨rest, rfl, -⟩ := starts_of_ascii (w := ['/']) hr.symm (forall_mem_singleton.2 (by decide))
    refine ⟨'/' :: '*' :: w ++ ['*', '/'], rest, by simp, nofun, ?_, .block fun hin => hw ?_⟩
    · rw [byteLength_append, length_bytes]
      show byteLength w + 2 + 2 = 1 + (1 + byteLength w) + 2
      omega
    · obtain ⟨a, b, hab⟩ := hin
      have hbytes := congrArg bytes hab
      rw [bytes_append, bytes_append, bytes_append] at hbytes
      exact ⟨bytes a, bytes b, hbytes⟩

theorem newline_notMem (hp : p '\n' = false) : '\n' ∉ cs.takeWhile p := by
  intro h
  rw [all_eq_true.1 all_takeWhile _ h] at hp
  cases hp

theorem head_dropWhile : ∀ c ∈ (cs.dropWhile p).head?, p c = false := by
  intro c hc
  have hne := head?_dropWhile_not p cs
  rw [hc] at hne
  simpa using hne

theorem takeWhile_bytes (hp : ∀ c : Char, ¬ c.toNat < 128 → p c = true) :
    (bytes cs).takeWhile p = bytes (cs.takeWhile p) := by
  induction cs with
  | nil => rfl
  | cons c cs ih =>
    rw [bytes_cons]
    by_cases hc : c.toNat < 128
    · rw [bytes_ascii hc, singleton_append]
      cases hpc : p c with
      | true =>
        rw [takeWhile_cons_of_pos hpc, takeWhile_cons_of_pos hpc, bytes_cons, bytes_ascii hc, ih]
        rfl
      | false =>
        rw [takeWhile_cons_of_neg (by simp [hpc]), takeWhile_cons_of_neg (by simp [hpc])]
        rfl
    · rw [takeWhile_append_of_pos fun d hd => hp d (bytes_wide hc d hd),
        takeWhile_cons_of_pos (hp c hc), ih, ← bytes_cons]

theorem readLine_fits : Reading.Fits on ('/' :: '/' :: cs)
      ⟨((bytes ('/' :: '/' :: cs)).takeWhile (· ≠ '\n')).length, .gap⟩ := by
  rw [takeWhile_bytes, length_bytes]
  · refine ⟨'/' :: '/' :: cs.takeWhile (· ≠ '\n'), cs.dropWhile (· ≠ '\n'), ?_, nofun, rfl, ?_⟩
    · rw [cons_append, cons_append, takeWhile_append_dropWhile]
    · exact .line (newline_notMem (by simp)) fun c hc => by simpa using head_dropWhile c hc
  · intro c hc
    refine decide_eq_true ?_
    rintro rfl
    exact hc (by decide)

theorem stringBody_eq {cs : List Byte} (h : stringBody escaped cs = (n, ending)) :
    ∃ body rest, cs = body ++ rest ∧ n = body.length ∧ '\n' ∉ body ∧
      (∀ c ∈ rest.head?, c.toNat < 128) ∧ (ending = .closed → rest.head? = some '"') := by
  induction cs generalizing escaped n ending with
  | nil => cases h; exact ⟨[], [], rfl, rfl, nofun, nofun, nofun⟩
  | cons c cs ih =>
    have hcons {escaped' : Bool} (hc : c ≠ '\n')
        (h : ((stringBody escaped' cs).1 + 1, (stringBody escaped' cs).2) = (n, ending)) :
        ∃ body rest, c :: cs = body ++ rest ∧ n = body.length ∧ '\n' ∉ body ∧
          (∀ c ∈ rest.head?, c.toNat < 128) ∧ (ending = .closed → rest.head? = some '"') := by
      obtain ⟨body, rest, hrest, hsize, hbody, hend⟩ := @ih escaped' _ _ rfl
      cases h
      refine ⟨c :: body, rest, congrArg (c :: ·) hrest, congrArg (· + 1) hsize, ?_, hend⟩
      rw [mem_cons, not_or]
      exact ⟨hc.symm, hbody⟩
    have hstop {d : Byte} (hc : c = d) (hd : d.toNat < 128) :
        ∀ b ∈ (c :: cs).head?, b.toNat < 128 := by
      rintro _ ⟨⟩
      rwa [hc]
    unfold stringBody at h
    split at h
    · rename_i hc; exact hcons (by rw [hc]; decide) h
    split at h
    · rename_i hc; cases h; exact ⟨[], _, rfl, rfl, nofun, hstop hc (by decide), nofun⟩
    split at h
    · rename_i hquote
      have hc := beq_iff_eq.1 (Bool.and_eq_true_iff.1 hquote).2
      cases h
      exact ⟨[], _, rfl, rfl, nofun, hstop hc (by decide), fun _ => congrArg some hc⟩
    · rename_i hc _; exact hcons hc h

theorem readString_fits (cs : List Char) : ∃ reading,
    readString ('"' :: cs) (bytes cs) = some reading ∧ reading.Fits on ('"' :: cs) := by
  cases hbody : stringBody false (bytes cs) with
  | mk n ending =>
    obtain ⟨body', rest', hcs, rfl, hline', hhead, hend⟩ := stringBody_eq hbody
    obtain ⟨body, rest, rfl, rfl, rfl⟩ := split_before_ascii hcs hhead
    have hline : '\n' ∉ body := fun h => hline' (mem_bytes (by decide) h)
    have hsize : byteLength ('"' :: body) = byteLength body + 1 := Nat.add_comm _ _
    rw [length_bytes] at hbody
    unfold readString
    rw [hbody]
    dsimp only
    rw [← hsize, ← cons_append, split?_append, hsize]
    refine ⟨_, rfl, ?_⟩
    cases ending with
    | closed =>
      obtain ⟨r, hr⟩ := head?_eq_some_iff.1 (hend rfl)
      obtain ⟨rest, rfl, -⟩ := starts_of_ascii (w := ['"']) hr (forall_mem_singleton.2 (by decide))
      have hpiece : byteLength body + 2 = byteLength ('"' :: body ++ ['"']) := by
        rw [byteLength_append, hsize]; rfl
      by_cases hlong : maxStringLength < byteLength body
      · rw [if_pos hlong]
        refine ⟨'"' :: body ++ ['"'], rest, by simp, nofun, hpiece, nofun, ?_⟩
        refine forall_mem_singleton.2 ⟨?_, by simpa using hline⟩
        rw [← hpiece]
        exact Nat.le_succ _
      · rw [if_neg hlong]
        exact ⟨'"' :: body ++ ['"'], rest, by simp, nofun, hpiece, .string hbody hline⟩
    | lineEnd | textEnd =>
      refine ⟨'"' :: body, rest, rfl, nofun, hsize.symm, nofun, ?_⟩
      split <;> simp [Concerns, hline, hsize]

/-- So many characters of a text are of ASCII and stand on one line. -/
def Unbroken (n : Nat) (cs : List Char) : Prop :=
  ∃ w rest, cs = w ++ rest ∧ n = w.length ∧ ∀ c ∈ w, c ≠ '\n' ∧ c.toNat < 128

theorem Unbroken.zero : Unbroken 0 cs := ⟨[], cs, rfl, rfl, nofun⟩

theorem Unbroken.cons (hc : c ≠ '\n' ∧ c.toNat < 128) (h : Unbroken n cs) :
    Unbroken (1 + n) (c :: cs) := by
  obtain ⟨w, rest, rfl, rfl, hw⟩ := h
  exact ⟨c :: w, rest, rfl, Nat.add_comm _ _, forall_mem_cons.2 ⟨hc, hw⟩⟩

theorem ascii_of_digit {c : Char} (h : c.isDigit = true) : c ≠ '\n' ∧ c.toNat < 128 := by
  obtain ⟨-, hle⟩ := Bool.and_eq_true_iff.1 h
  have hle' : c.toNat ≤ 57 := UInt32.le_iff_toNat_le.1 (of_decide_eq_true hle)
  refine ⟨?_, by omega⟩
  rintro rfl
  cases h

theorem Unbroken.digits (h : Unbroken n (cs.dropWhile Char.isDigit)) :
    Unbroken ((cs.takeWhile Char.isDigit).length + n) cs := by
  obtain ⟨w, rest, hcs, rfl, hw⟩ := h
  refine ⟨cs.takeWhile Char.isDigit ++ w, rest, ?_, length_append.symm, ?_⟩
  · rw [append_assoc, ← hcs, takeWhile_append_dropWhile]
  · rw [forall_mem_append]
    exact ⟨fun c hc => ascii_of_digit (all_eq_true.1 all_takeWhile c hc), hw⟩

theorem exponent_unbroken (cs : List Char) : Unbroken (match Exponent.split? cs with
    | some e => e.length
    | none => 0) cs := by
  have hletter {c : Char} (hc : c = 'e' ∨ c = 'E') : c ≠ '\n' ∧ c.toNat < 128 := by
    obtain rfl | rfl := hc <;> decide
  have hsigned {c d : Char} {ds : List Char} (hc : c = 'e' ∨ c = 'E')
      (hd : d ≠ '\n' ∧ d.toNat < 128) :
      Unbroken (1 + 1 + (ds.takeWhile Char.isDigit).length) (c :: d :: ds) := by
    rw [Nat.add_assoc]
    exact .cons (hletter hc) (.cons hd (.digits .zero))
  fun_cases Exponent.split? cs with
  | case1 => exact .zero
  | case2 c hc ds => exact hsigned hc (by decide)
  | case3 c hc ds => exact hsigned hc (by decide)
  | case4 => exact .cons (hletter ‹_›) (.digits .zero)
  | case5 => exact .zero

theorem numeral_unbroken (cs : List Char) : Unbroken (Numeral.split cs).length cs := by
  unfold Numeral.split Numeral.length Numeral.plainLength
  dsimp only
  rw [Nat.add_assoc]
  refine .digits ?_
  generalize cs.dropWhile Char.isDigit = ds
  split
  · rename_i hfraction
    split at hfraction
    · cases hfraction
      exact Nat.add_assoc .. ▸ .cons (by decide) (.digits (exponent_unbroken _))
    · cases hfraction
  · rename_i hfraction
    split at hfraction
    · cases hfraction
    · exact Nat.zero_add _ ▸ exponent_unbroken _

theorem numeral_token {n : Numeral} (h : n.token = .ok t) :
    (∃ i, t = .integer i) ∨ ∃ d, t = .float d := by
  unfold Numeral.token Numeral.integer Numeral.float at h
  split at h
  · split at h
    · cases h
    · cases h; exact .inl ⟨_, rfl⟩
  · dsimp only at h
    split at h
    · cases h
    split at h
    · cases h; exact .inr ⟨_, rfl⟩
    · cases h

theorem bounded_error (h : Numeral.bounded limit cs v k = .error i) : i < k + cs.length := by
  fun_induction Numeral.bounded limit cs v k with
  | case1 => cases h
  | case2 c cs v k next hnext ih => have := ih h; rw [length_cons]; omega
  | case3 => cases h; rw [length_cons]; omega

theorem power_error {n : Numeral} (h : n.power k = .error e) :
    e.2 ≤ n.length ∧ e.1 ≠ .unterminatedComment := by
  unfold Numeral.power at h
  cases hn : n.exponent with
  | none => rw [hn] at h; cases h
  | some x =>
    rw [hn] at h
    dsimp only at h
    split at h
    · cases h; exact ⟨Nat.le_refl _, nofun⟩
    split at h
    · rename_i hi
      cases h
      have := bounded_error hi
      refine ⟨?_, nofun⟩
      simp only [Numeral.length, hn, Exponent.length]
      omega
    · generalize ite (x.sign = some '-') _ _ = total at h
      split at h <;> cases h
      exact ⟨Nat.le_refl _, nofun⟩

theorem numeral_error {n : Numeral} (h : n.token = .error e) :
    e.2 ≤ n.length ∧ e.1 ≠ .unterminatedComment := by
  unfold Numeral.token Numeral.integer Numeral.float at h
  split at h
  · split at h <;> cases h
    rename_i hi
    have := bounded_error hi
    refine ⟨?_, nofun⟩
    simp only [Numeral.length, Numeral.plainLength]
    omega
  · dsimp only at h
    split at h
    · rename_i hx; cases h; exact power_error hx
    · split at h <;> cases h
      exact ⟨Nat.le_refl _, nofun⟩

theorem readNumeral_fits (hc : c.isDigit = true) :
    (readNumeral (bytes (c :: cs))).Fits on (c :: cs) := by
  obtain ⟨w, rest', hcs, hlength, hline⟩ := numeral_unbroken (bytes (c :: cs))
  have hascii : ∀ d ∈ w, d.toNat < 128 := fun d hd => (hline d hd).2
  obtain ⟨rest, htext, -⟩ := starts_of_ascii hcs hascii
  rw [← byteLength_ascii hascii] at hlength
  have hw : w ≠ [] := by
    rintro rfl
    simp [Numeral.length, Numeral.plainLength, Numeral.split, hc, bytes_cons,
      bytes_ascii (ascii_of_digit hc).2, byteLength] at hlength
  have hhead : ∀ d ∈ w.head?, d.isDigit := by
    cases w with
    | nil => exact nofun
    | cons d w => cases htext; rintro d ⟨⟩; exact hc
  have hnewline : '\n' ∉ w := fun h => (hline _ h).1 rfl
  unfold readNumeral
  refine ⟨w, rest, htext, hw, ?_⟩
  rw [htext] at hlength ⊢
  dsimp only
  split
  · rename_i ht; exact ⟨hlength, .numeral ht hlength hhead hw hnewline⟩
  rename_i he
  obtain ⟨hle, hne⟩ := numeral_error he
  refine ⟨hlength, nofun, forall_mem_singleton.2 ⟨?_, (if_neg hne).symm ▸ hnewline⟩⟩
  exact hlength ▸ hle

theorem ascii_of_nameChar {c : Char} (h : isNameChar c = true) : c.toNat < 128 := by
  unfold isNameChar Char.isAlphanum Char.isAlpha Char.isUpper Char.isLower Char.isDigit at h
  simp only [Bool.or_eq_true, Bool.and_eq_true, decide_eq_true_eq, beq_iff_eq] at h
  obtain ((⟨-, h⟩ | ⟨-, h⟩) | ⟨-, h⟩) | rfl := h
  · exact Nat.lt_of_le_of_lt (UInt32.le_iff_toNat_le.1 h) (by decide)
  · exact Nat.lt_of_le_of_lt (UInt32.le_iff_toNat_le.1 h) (by decide)
  · exact Nat.lt_of_le_of_lt (UInt32.le_iff_toNat_le.1 h) (by decide)
  · decide

theorem takeWhile_ascii (hp : ∀ c : Char, p c = true → c.toNat < 128) :
    (bytes cs).takeWhile p = cs.takeWhile p := by
  induction cs with
  | nil => rfl
  | cons c cs ih =>
    rw [bytes_cons]
    by_cases hc : c.toNat < 128
    · rw [bytes_ascii hc, singleton_append, takeWhile_cons, takeWhile_cons, ih]
    · obtain ⟨d, ds, hd⟩ := exists_cons_of_ne_nil (bytes_ne_nil (cons_ne_nil c []))
      have hwide : ¬ d.toNat < 128 := bytes_wide hc d (hd ▸ mem_cons_self)
      rw [hd, cons_append, takeWhile_cons_of_neg fun h => hwide (hp d h),
        takeWhile_cons_of_neg fun h => hc (hp c h)]

theorem nameChar_of_nameStart (h : isNameStart c = true) : isNameChar c = true := by
  unfold isNameStart at h
  unfold isNameChar Char.isAlphanum
  grind

theorem readWord_fits (hc : isNameStart c = true) : ∃ reading,
    readWord on (c :: cs) (bytes (c :: cs)) = some reading ∧ reading.Fits on (c :: cs) := by
  have hchar := nameChar_of_nameStart hc
  have hword : ∀ d ∈ cs.takeWhile isNameChar, isNameChar d := all_eq_true.1 all_takeWhile
  have hsize := byteLength_ascii (w := c :: cs.takeWhile isNameChar)
    (forall_mem_cons.2 ⟨ascii_of_nameChar hchar, fun d hd => ascii_of_nameChar (hword d hd)⟩)
  have hcs : c :: cs = c :: cs.takeWhile isNameChar ++ cs.dropWhile isNameChar := by
    rw [cons_append, takeWhile_append_dropWhile]
  unfold readWord
  rw [takeWhile_ascii fun _ => ascii_of_nameChar, takeWhile_cons_of_pos hchar, ← hsize]
  dsimp only
  split
  · refine ⟨_, rfl, _, _, hcs, nofun, rfl, nofun, forall_mem_singleton.2 ⟨Nat.le_refl _, ?_⟩⟩
    rw [← takeWhile_cons_of_pos hchar]
    exact newline_notMem rfl
  · rw [(congrArg (split? _) hcs).trans split?_append]
    exact ⟨_, rfl, _, _, hcs, nofun, rfl, .word hc hword head_dropWhile⟩

/-- A mark is listed before those that it starts with. -/
theorem marks_descending : Mark.all.Pairwise fun m m' =>
    m.text.toList <+: m'.text.toList → m'.text.length ≤ m.text.length := by
  decide +kernel

theorem mem_marks (m : Mark) : m ∈ Mark.all := by cases m <;> decide

theorem mark_ascii (m : Mark) : ∀ c ∈ m.text.toList, c.toNat < 128 := by
  have hall : (Mark.all.all fun m => m.text.toList.all fun c => decide (c.toNat < 128)) = true := by
    decide +kernel
  intro c hc
  exact of_decide_eq_true (all_eq_true.1 (all_eq_true.1 hall m (mem_marks m)) c hc)

theorem readMark_fits (hc : c ≠ '\n') :
    (readMark (c :: cs) (bytes (c :: cs))).Fits on (c :: cs) := by
  unfold readMark
  cases h : Mark.all.find? fun m => m.text.toList.isPrefixOf (bytes (c :: cs)) with
  | none =>
    exact ⟨[c], cs, rfl, nofun, rfl, nofun,
      forall_mem_singleton.2 ⟨Nat.le_refl _, by simpa using hc.symm⟩⟩
  | some m =>
    obtain ⟨hm, before, behind, hall, hbefore⟩ := find?_eq_some_iff_append.1 h
    obtain ⟨rest', hrest⟩ := isPrefixOf_iff_prefix.1 hm
    obtain ⟨rest, hcs, rfl⟩ := starts_of_ascii hrest.symm (mark_ascii m)
    have hnil : m.text.toList ≠ [] := by cases m <;> decide
    have hsize : m.text.length = byteLength m.text.toList := by
      rw [byteLength_ascii (mark_ascii m), String.length_toList]
    refine ⟨m.text.toList, rest, hcs, hnil, hsize, .mark fun m' hm' => ?_⟩
    rw [← hcs] at hm'
    replace hm' : m'.text.toList <+: bytes (c :: cs) := by
      obtain ⟨r, hr⟩ := hm'
      exact ⟨bytes r, by rw [← hr, bytes_append, bytes_of_ascii (mark_ascii m')]⟩
    have hmem := mem_marks m'
    have hdescending := marks_descending
    rw [hall] at hmem hdescending
    obtain hmem | hmem := mem_append.1 hmem
    · have := hbefore m' hmem
      simp [ isPrefixOf_iff_prefix.2 hm'] at this
    obtain rfl | hmem := mem_cons.1 hmem
    · exact Nat.le_refl _
    by_cases hle : m'.text.length ≤ m.text.length
    · exact hle
    refine (pairwise_cons.1 (pairwise_append.1 hdescending).2.1).1 m' hmem ?_
    refine prefix_of_prefix_length_le ⟨_, hrest⟩ hm' ?_
    simp only [String.length_toList]
    omega

/-- Whatever a text goes on with, it is read, and the reading fits. -/
theorem read_fits (on : Bool) (c : Char) (cs : List Char) :
    ∃ b bs reading, bytes (c :: cs) = b :: bs ∧ read on (c :: cs) b bs = some reading ∧
      reading.Fits on (c :: cs) := by
  obtain ⟨b, bs, hbytes⟩ := exists_cons_of_ne_nil (bytes_ne_nil (cons_ne_nil c cs))
  -- what is looked for is ASCII, so the byte is the character
  have hsame (hb : b.toNat < 128) : b = c ∧ bs = bytes cs := by
    obtain ⟨rest, hrest, hbs⟩ := starts_of_ascii (w := [b]) hbytes (forall_mem_singleton.2 hb)
    cases hrest
    exact ⟨rfl, hbs⟩
  have hnext {d : Char} (h : (bytes cs).head? = some d) (hd : d.toNat < 128) :
      ∃ ds, cs = d :: ds := by
    obtain ⟨r, hr⟩ := head?_eq_some_iff.1 h
    obtain ⟨ds, hds, -⟩ := starts_of_ascii (w := [d]) hr (forall_mem_singleton.2 hd)
    exact ⟨ds, hds⟩
  unfold read
  refine ⟨b, bs, ?_⟩
  split
  · rename_i hb
    have hascii : b.toNat < 128 := Nat.lt_of_le_of_lt (UInt32.le_iff_toNat_le.1 hb) (by decide)
    obtain ⟨rfl, -⟩ := hsame hascii
    have hsize : byteLength [b] = 1 := byteLength_ascii (forall_mem_singleton.2 hascii)
    exact ⟨_, hbytes, rfl, [b], cs, rfl, nofun, hsize.symm, .space hb⟩
  rename_i hblank
  split
  · rename_i h
    obtain ⟨rfl, hhead⟩ := h
    obtain ⟨rfl, rfl⟩ := hsame (by decide)
    obtain ⟨cs, rfl⟩ := hnext hhead (by decide)
    rw [← hbytes]
    exact ⟨_, rfl, rfl, readLine_fits⟩
  split
  · rename_i h
    obtain ⟨rfl, hhead⟩ := h
    obtain ⟨rfl, rfl⟩ := hsame (by decide)
    obtain ⟨cs, rfl⟩ := hnext hhead (by decide)
    exact ⟨_, hbytes, rfl, readComment_fits cs⟩
  split
  · rename_i hb
    obtain ⟨rfl, -⟩ := hsame (ascii_of_digit hb).2
    rw [← hbytes]
    exact ⟨_, rfl, rfl, readNumeral_fits hb⟩
  split
  · rename_i hb
    obtain ⟨rfl, rfl⟩ := hsame (hb ▸ by decide)
    subst hb
    obtain ⟨reading, hread, hfits⟩ := readString_fits cs
    exact ⟨reading, hbytes, hread, hfits⟩
  rw [← hbytes]
  split
  · rename_i hb
    obtain ⟨rfl, -⟩ := hsame (ascii_of_nameChar (nameChar_of_nameStart hb))
    obtain ⟨reading, hread, hfits⟩ := readWord_fits hb
    exact ⟨reading, rfl, hread, hfits⟩
  · have hline : c ≠ '\n' := by
      rintro rfl
      cases hbytes
      exact hblank (by decide)
    exact ⟨_, rfl, rfl, readMark_fits hline⟩

/-! ## Tokens over a text -/

theorem Spells.ne_nil (h : Spells on t w rest) : w ≠ [] := by
  cases h with
  | numeral _ _ _ hw => exact hw
  | string | word => exact nofun
  | mark => rename_i m _; cases m <;> decide

theorem Spells.unbroken (h : Spells on t w rest) : '\n' ∉ w := by
  cases h with
  | numeral _ _ _ _ hw => exact hw
  | string _ hbody => simp [hbody]
  | word hc hw =>
    rw [mem_cons, not_or]
    exact ⟨fun heq => absurd (heq ▸ hc) (by decide), fun hin => absurd (hw _ hin) (by decide)⟩
  | mark => rename_i m _; cases m <;> decide

theorem ofWord_cases (on : Bool) (word : String) : (∃ k, Token.ofWord on word = .keyword k) ∨
    (∃ ty, Token.ofWord on word = .typeName ty) ∨ Token.ofWord on word = .name word := by
  unfold Token.ofWord
  dsimp only
  split
  · exact .inl ⟨_, rfl⟩
  · exact .inr (.inl ⟨_, rfl⟩)
  · exact .inr (.inr rfl)

theorem Spells.of_name {name : String} (h : Spells on (.name name) w rest) : w = name.toList := by
  generalize ht : Token.name name = t at h
  cases h with
  | numeral h => obtain ⟨_, rfl⟩ | ⟨_, rfl⟩ := numeral_token h <;> cases ht
  | string | mark => cases ht
  | @word c w =>
    obtain ⟨k, h⟩ | ⟨ty, h⟩ | h := ofWord_cases on (String.ofList (c :: w)) <;> rw [h] at ht <;>
      cases ht
    exact String.toList_ofList.symm

theorem Spells.of_mark {m : Mark} (h : Spells on (.mark m) w rest) : w = m.text.toList := by
  generalize ht : Token.mark m = t at h
  cases h with
  | numeral h => obtain ⟨_, rfl⟩ | ⟨_, rfl⟩ := numeral_token h <;> cases ht
  | string => cases ht
  | @word c w =>
    obtain ⟨k, h⟩ | ⟨ty, h⟩ | h := ofWord_cases on (String.ofList (c :: w)) <;> rw [h] at ht <;>
      cases ht
  | mark => cases ht; rfl

theorem Gap.suffix (h : Gap on text rest on') : rest <:+ text := by
  induction h with
  | none => exact suffix_refl _
  | blank _ _ ih => exact (suffix_append _ _).trans ih
  | pragma _ _ _ ih1 ih2 ih3 =>
    exact (suffix_cons _ _).trans <| ih3.trans <| (suffix_append _ _).trans <|
      ih2.trans <| (suffix_append _ _).trans ih1

/-- Before `rest` the array extension has been switched on. -/
def Enabled (text rest : List Char) : Prop :=
  ∃ r₁ r₂ r₃ on₁ on₂ on₃, "XMROption".toList ++ r₁ <:+ text ∧
    Gap on₁ r₁ ("arrays".toList ++ r₂) on₂ ∧ Gap on₂ r₂ (';' :: r₃) on₃ ∧ rest <:+ r₃

theorem Enabled.mono (h : Enabled text r) (hr : rest <:+ r) : Enabled text rest := by
  obtain ⟨r1, r2, r3, on1, on2, on3, htext, h1, h2, h3⟩ := h
  exact ⟨r1, r2, r3, on1, on2, on3, htext, h1, h2, hr.trans h3⟩

theorem Gap.enabled (h : Gap on r rest on') (hr : r <:+ text) (hon : on = true → Enabled text r) :
    on' = true → Enabled text rest := by
  induction h with
  | none => exact hon
  | blank _ _ ih => exact fun h => (ih hr hon h).mono (suffix_append _ _)
  | pragma h1 h2 h3 =>
    exact fun _ => ⟨_, _, _, _, _, _, h1.suffix.trans hr, h2, h3, suffix_refl _⟩

/-- The place of a token in a text: it has text of its own, on one line, and the words of the array
extension stand behind those that switch it on. -/
def Placed (text : List Char) (l : Lexeme) : Prop :=
  ∃ pre w rest on, text = pre ++ (w ++ rest) ∧ l.span = ⟨byteLength pre, byteLength (pre ++ w)⟩ ∧
    l.span.start < l.span.stop ∧ l.position = after pre ∧ Spells on l.token w rest ∧
    (on = true → Enabled text (w ++ rest))

/-- Tokens that are laid over a text stand in its order. -/
theorem Laid.ordered (h : Laid text rest on found) :
    (on = true → Enabled text rest) ∧ (∀ l ∈ found, Placed text l) ∧
    found.Pairwise (fun l l' => l'.span.stop ≤ l.span.start) ∧
    ∃ pre, text = pre ++ rest ∧ ∀ l ∈ found, l.span.stop ≤ byteLength pre := by
  induction h with
  | start => exact ⟨nofun, nofun, .nil, [], rfl, nofun⟩
  | @token r on found w rest on' t pre _ hgap ht htext ih =>
    obtain ⟨hon, hplaced, hsorted, pre', hpre', hends⟩ := ih
    obtain ⟨g, rfl⟩ := hgap.suffix
    have hon' := hgap.enabled ⟨pre', hpre'.symm⟩ hon
    obtain rfl : pre = pre' ++ g := by
      rw [htext, ← append_assoc pre'] at hpre'
      exact append_cancel_right hpre'
    have hle : byteLength pre' ≤ byteLength (pre' ++ g) := by rw [byteLength_append]; omega
    have hlt : byteLength (pre' ++ g) < byteLength (pre' ++ g ++ w) := by
      have := byteLength_pos ht.ne_nil
      rw [byteLength_append (b := w)]
      omega
    refine ⟨fun h => (hon' h).mono (suffix_append _ _), ?_, ?_, pre' ++ g ++ w, ?_, ?_⟩
    · rw [forall_mem_cons]
      exact ⟨⟨pre' ++ g, w, rest, on', htext, rfl, hlt, rfl, ht, hon'⟩, hplaced⟩
    · exact .cons (fun l hl => Nat.le_trans (hends l hl) hle) hsorted
    · rw [htext, append_assoc (pre' ++ g)]
    · rw [forall_mem_cons]
      refine ⟨Nat.le_refl _, fun l hl => ?_⟩
      exact Nat.le_trans (hends l hl) (Nat.le_trans hle (Nat.le_of_lt hlt))

/-! ## The scanner -/

namespace Cursor

theorem skip_add (m n : Nat) (c : Cursor) : skip (m + n) c = skip n (skip m c) := by
  induction m generalizing c with
  | zero => rw [Nat.zero_add]; rfl
  | succ m ih => rw [Nat.succ_add]; exact ih c.next

theorem skip_unbroken {w rest : List Byte} (h : '\n' ∉ w) (offset line lineStart : Nat) :
    skip w.length ⟨text, w ++ rest, offset, line, lineStart⟩ =
      ⟨text, rest, offset + w.length, line, lineStart⟩ := by
  induction w generalizing offset with
  | nil => rfl
  | cons b w ih =>
    rw [mem_cons, not_or] at h
    have hnext : next ⟨text, b :: (w ++ rest), offset, line, lineStart⟩ =
      ⟨text, w ++ rest, offset + 1, line, lineStart⟩ := if_neg (Ne.symm h.1)
    rw [length_cons, skip, cons_append, hnext, ih h.2, Nat.add_assoc, Nat.add_comm 1]

/-- The cursor stands between two characters: its offset, line and column are those of the text
before it, and the bytes that are left are those of the text behind it. -/
structure At (pre post : List Char) (c : Cursor) : Prop where
  rest : c.rest = bytes post
  offset : c.offset = byteLength pre
  line : c.line = 1 + pre.count '\n'
  lineStart : c.offset = c.lineStart + byteLength (lastLine pre)

theorem At.next {c : Cursor} (h : c.At pre (ch :: post)) :
    (c.skip ch.utf8Size).At (pre ++ [ch]) post := by
  obtain ⟨text, rest, offset, line, lineStart⟩ := c
  obtain ⟨rfl, hoffset, hline, hstart⟩ := h
  dsimp only at hoffset hline hstart
  by_cases hc : ch = '\n'
  · subst hc
    have hlast : lastLine (pre ++ ['\n']) = [] := by simp [lastLine]
    refine ⟨rfl, ?_, ?_, ?_⟩
    · exact (congrArg (· + 1) hoffset).trans (byteLength_concat pre '\n').symm
    · exact (congrArg (· + 1) hline).trans (by simp [Nat.add_assoc])
    · rw [hlast]
      rfl
  · have hbytes : '\n' ∉ bytes [ch] := by
      by_cases hascii : ch.toNat < 128
      · rw [bytes_ascii hascii]
        simpa using Ne.symm hc
      · exact fun h => bytes_wide hascii _ h (by decide)
    have hsize : (bytes [ch]).length = ch.utf8Size := length_bytes [ch]
    rw [bytes_cons, ← hsize, skip_unbroken hbytes, hsize]
    refine ⟨rfl, ?_, ?_, ?_⟩
    · exact (congrArg (· + ch.utf8Size) hoffset).trans (byteLength_concat pre ch).symm
    · simp [hline, hc]
    rw [lastLine_append (by simpa using Ne.symm hc), byteLength_concat]
    show offset + ch.utf8Size = lineStart + (byteLength (lastLine pre) + ch.utf8Size)
    omega

theorem At.skip {c : Cursor} (h : c.At pre (w ++ post)) :
    (c.skip (byteLength w)).At (pre ++ w) post := by
  induction w generalizing c pre with
  | nil => exact (append_nil pre).symm ▸ h
  | cons ch w ih =>
    rw [byteLength, skip_add, append_cons]
    exact ih h.next

theorem At.move {c : Cursor} (h : c.At pre (w ++ post)) (ht : c.text = w ++ post) :
    ∃ c', c.move? (byteLength w) = some c' ∧ c'.text = post ∧ c'.At (pre ++ w) post := by
  rw [move?, ht, split?_append]
  exact ⟨_, rfl, rfl, h.skip.rest, h.skip.offset, h.skip.line, h.skip.lineStart⟩

theorem At.positionOf {c : Cursor} (h : c.At (pre ++ w) post) (hw : '\n' ∉ w) :
    c.positionOf (byteLength pre) = after pre := by
  have hstart := h.lineStart
  rw [h.offset, lastLine_append hw, byteLength_append, byteLength_append] at hstart
  have hcolumn : byteLength pre - c.lineStart + 1 = 1 + byteLength (lastLine pre) := by omega
  rw [Cursor.positionOf, Source.after, hcolumn, h.line, count_append, count_eq_zero.2 hw]
  rfl

end Cursor

namespace Scanner

/-- A scanner stands between two characters, and as long as nothing is wrong its tokens are laid
over the text before it. -/
structure Scanned (text pre post : List Char) (s : Scanner) : Prop where
  parts : text = pre ++ post
  left : s.cursor.text = post
  place : s.cursor.At pre post
  laid : s.errors = [] → ∃ r on, Laid text r on s.found ∧ Gap on r post s.arrays

variable {s : Scanner}

theorem accept_cursor (start : Nat) : (s.accept start t).cursor = s.cursor := by
  unfold accept; split <;> rfl

theorem accept_errors (start : Nat) : (s.accept start t).errors = s.errors := by
  unfold accept; split <;> rfl

theorem accept_laid (ht : Spells s.arrays t w rest) (hat : s.cursor.At (pre ++ w) rest)
    (htext : text = pre ++ (w ++ rest)) (hlaid : Laid text r on s.found)
    (hgap : Gap on r (w ++ rest) s.arrays) :
    ∃ r on, Laid text r on (s.accept (byteLength pre) t).found ∧
      Gap on r rest (s.accept (byteLength pre) t).arrays := by
  unfold accept
  split
  · rename_i hpragma
    obtain ⟨hmark, hwords⟩ := Bool.and_eq_true_iff.1 hpragma
    rw [beq_iff_eq.1 hmark] at ht
    unfold atPragma at hwords
    generalize s.found = found at hlaid hwords
    cases hlaid with
    | start => cases hwords
    | token hlaid1 hgap1 ht1 =>
      cases hlaid1 with
      | start => cases hwords
      | token hlaid2 hgap2 ht2 =>
        obtain ⟨ha, hx⟩ := Bool.and_eq_true_iff.1 hwords
        obtain rfl := beq_iff_eq.1 ha
        obtain rfl := beq_iff_eq.1 hx
        rw [ht1.of_name] at hgap1
        rw [ht2.of_name] at hgap2
        rw [ht.of_mark] at hgap
        exact ⟨_, _, hlaid2, .pragma hgap2 hgap1 hgap⟩
  · refine ⟨_, _, ?_, .none⟩
    rw [hat.offset, hat.positionOf ht.unbroken]
    exact .token hlaid hgap ht htext

theorem Scanned.take (h : s.Scanned text pre post) (hfits : reading.Fits s.arrays post) :
    ∃ s' w rest, s.take? reading = some s' ∧ post = w ++ rest ∧ w ≠ [] ∧
      s'.Scanned text (pre ++ w) rest := by
  obtain ⟨htext, hleft, hat, hlaid⟩ := h
  obtain ⟨w, rest, rfl, hw, hlength, hitem⟩ := hfits
  have htext' : text = pre ++ w ++ rest := by rw [htext, append_assoc]
  obtain ⟨cursor, hmove, hleft', hat'⟩ := hat.move hleft
  rw [take?, hlength, hmove]
  refine ⟨_, w, rest, rfl, rfl, hw, ?_⟩
  dsimp only
  split <;> rename_i heq <;> rw [heq] at hitem
  · refine ⟨htext', hleft', hat', fun he => ?_⟩
    obtain ⟨r, on, hfound, hgap⟩ := hlaid he
    exact ⟨r, on, hfound, .blank hgap hitem⟩
  · refine ⟨htext', by rwa [accept_cursor], (accept_cursor _).symm ▸ hat', fun he => ?_⟩
    rw [accept_errors] at he
    obtain ⟨r, on, hfound, hgap⟩ := hlaid he
    rw [hat.offset]
    exact accept_laid hitem hat' htext hfound hgap
  · refine ⟨htext', hleft', hat', fun he => ?_⟩
    rw [complain, append_eq_nil_iff, reverse_eq_nil_iff, map_eq_nil_iff] at he
    exact absurd he.1 hitem.1

theorem step?_cons (h : s.Scanned text pre (c :: cs)) :
    ∃ reading, s.step? = s.take? reading ∧ reading.Fits s.arrays (c :: cs) := by
  obtain ⟨b, bs, reading, hbytes, hread, hfits⟩ := read_fits s.arrays c cs
  refine ⟨reading, ?_, hfits⟩
  unfold step?
  rw [h.place.rest, hbytes]
  dsimp only
  rw [h.left, hread]
  rfl

theorem step?_nil (h : s.Scanned text pre []) : s.step? = some s := by
  unfold step?
  rw [h.place.rest]
  rfl

/-- Where the scanner is and what is in front of it after so many steps. The text is never cut within
a character, and every step uses a byte as long as there is one. -/
theorem Scanned.steps (h : s.Scanned text pre post) (n : Nat) :
    ∃ s' w rest, steps? n s = some s' ∧ post = w ++ rest ∧ s'.Scanned text (pre ++ w) rest ∧
      byteLength rest ≤ byteLength post - n := by
  induction n generalizing s pre post with
  | zero => exact ⟨s, [], post, rfl, rfl, (append_nil pre).symm ▸ h, Nat.le_refl _⟩
  | succ n ih =>
    cases post with
    | nil =>
      obtain ⟨s', w, rest, hsteps, hrest, hscanned, hle⟩ := ih h
      have hnil : byteLength [] = 0 := rfl
      exact ⟨s', w, rest, by rw [steps?, step?_nil h]; exact hsteps, hrest, hscanned, by omega⟩
    | cons c cs =>
      obtain ⟨reading, hstep, hfits⟩ := step?_cons h
      obtain ⟨s₁, v, post, htake, hpost, hv, hscanned⟩ := h.take hfits
      obtain ⟨s', w, rest, hsteps, rfl, hscanned', hle⟩ := ih hscanned
      refine ⟨s', v ++ w, rest, by rw [steps?, hstep, htake]; exact hsteps, ?_, ?_, ?_⟩
      · rw [hpost, append_assoc]
      · rwa [← append_assoc]
      · have := byteLength_pos hv
        rw [hpost, byteLength_append (a := v)]
        omega

theorem Scanned.ends (h : s.Scanned text pre post) :
    ∃ s', steps? (byteLength post) s = some s' ∧ s'.Scanned text text [] := by
  obtain ⟨s', w, rest, hsteps, rfl, hscanned, hle⟩ := h.steps (byteLength post)
  obtain rfl : rest = [] := Decidable.byContradiction fun hne => by
    have := byteLength_pos hne
    omega
  have htext := hscanned.parts
  rw [append_nil] at htext
  exact ⟨s', hsteps, htext ▸ hscanned⟩

theorem start_scanned (text : List Char) : (start text).Scanned text [] text :=
  ⟨rfl, rfl, ⟨rfl, rfl, rfl, rfl⟩, fun _ => ⟨_, _, .start, .none⟩⟩

end Scanner

end Lexer

open Lexer Source

theorem Lexer.scan?_eq (text : List Char) :
    ∃ s : Scanner, Scanner.steps? (byteLength text) (.start text) = some s ∧
      s.Scanned text text [] ∧ scan? text = some s.result := by
  obtain ⟨s, hsteps, hscanned⟩ := (Scanner.start_scanned text).ends
  refine ⟨s, hsteps, hscanned, ?_⟩
  rw [scan?, hsteps]
  rfl

/-- The tokens of a text that can be read are laid over it, and only what is left out stands
between them and behind the last one. -/
theorem TokenStream.ofSource_laid (h : TokenStream.ofSource source = .ok t) :
    (∃ r on, Laid source.toList r on t.lexemes.reverse ∧ Gap on r [] t.arrays) ∧
    t.finish = (byteLength source.toList, after source.toList) := by
  obtain ⟨s, -, ⟨-, -, hat, hlaid⟩, hscan⟩ := scan?_eq source.toList
  rw [ofSource, ofChars, hscan, Option.getD_some, Scanner.result] at h
  split at h
  · rename_i herrors
    cases h
    obtain ⟨r, on, hfound, hgap⟩ := hlaid herrors
    refine ⟨⟨r, on, ?_, hgap⟩, ?_⟩
    · rw [reverse_reverse]; exact hfound
    have hposition := Cursor.At.positionOf (w := []) (by rw [append_nil]; exact hat) nofun
    exact Prod.ext hat.offset ((congrArg _ hat.offset).trans hposition)
  · cases h

/-- The text is never cut within a character: wherever the scanner is, it stands between two. The
tokens of a text that can be read follow each other in it, each with its own text and position, and
between them stands only what is left out. -/
theorem TokenStream.ofSource_covers (source : String) :
    (∀ n, ∃ s pre post, Scanner.steps? n (.start source.toList) = some s ∧
      source.toList = pre ++ post ∧ s.cursor.text = post ∧ s.cursor.At pre post) ∧
    (∃ result, scan? source.toList = some result ∧ TokenStream.ofSource source = result) ∧
    ∀ t, TokenStream.ofSource source = .ok t →
      (∃ r on, Laid source.toList r on t.lexemes.reverse ∧ Gap on r [] t.arrays) ∧
      (∀ l ∈ t.lexemes, Placed source.toList l) ∧
      t.lexemes.Pairwise (fun l l' => l.span.stop ≤ l'.span.start) ∧
      t.finish = (byteLength source.toList, after source.toList) := by
  refine ⟨fun n => ?_, ?_, fun t h => ?_⟩
  · obtain ⟨s, w, rest, hsteps, -, hscanned, -⟩ := (Scanner.start_scanned source.toList).steps n
    exact ⟨s, w, rest, hsteps, hscanned.parts, hscanned.left, hscanned.place⟩
  · obtain ⟨s, -, -, hscan⟩ := scan?_eq source.toList
    exact ⟨s.result, hscan, by rw [ofSource, ofChars, hscan]; rfl⟩
  obtain ⟨⟨r, on, hlaid, hgap⟩, hfinish⟩ := TokenStream.ofSource_laid h
  obtain ⟨-, hplaced, hsorted, -⟩ := hlaid.ordered
  refine ⟨⟨r, on, hlaid, hgap⟩, fun l hl => ?_, ?_, hfinish⟩
  · exact hplaced l (mem_reverse.2 hl)
  · exact pairwise_reverse.1 hsorted

/-- The characters of a literal need not be decoded to read it. -/
theorem TokenStream.ofSource_ofList (cs : List Char) :
    TokenStream.ofSource (.ofList cs) = TokenStream.ofChars cs := congrArg ofChars String.toList_ofList

theorem eq_ok_of_toOption {x : Except ε α} (h : x.toOption = some a) : x = .ok a := by
  cases x with
  | error e => cases h
  | ok b => cases h; rfl

def opening : String := "/* größe */ XMROption // on\n arrays; x <<= is"

theorem opening_covered : ∃ t, TokenStream.ofSource opening = .ok t ∧
    t.lexemes.map (·.token) = [.name "x", .mark .shlAssign, .keyword .isType] ∧
    t.lexemes.map (·.position) = [⟨2, 10⟩, ⟨2, 12⟩, ⟨2, 16⟩] ∧
    t.lexemes.Pairwise (fun l l' => l.span.stop ≤ l'.span.start) := by
  have ht : (TokenStream.ofSource opening).toOption.map (fun t =>
      (t.lexemes.map (·.token), t.lexemes.map (·.position))) =
        some ([.name "x", .mark .shlAssign, .keyword .isType], [⟨2, 10⟩, ⟨2, 12⟩, ⟨2, 16⟩]) := by
    rw [opening, TokenStream.ofSource_ofList]
    decide +kernel
  obtain ⟨t, hsome, heq⟩ := Option.map_eq_some_iff.1 ht
  obtain ⟨htokens, hpositions⟩ := Prod.mk.inj heq
  have hok := eq_ok_of_toOption hsome
  exact ⟨t, hok, htokens, hpositions, ((TokenStream.ofSource_covers opening).2.2 t hok).2.2.1⟩

end EventScript
