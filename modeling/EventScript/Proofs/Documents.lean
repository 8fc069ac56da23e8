import EventScript.Json.Decode

/-!
# Documents that are taken apart

What a lawful format makes of data, it takes apart to the same data again (`Format.Lawful`).
`Json.format` is lawful (`Json.format_lawful`).
-/

namespace EventScript

open List

namespace Format

variable {F : Format} {α β : Type}

/-- What a format makes, it takes apart again. Nothing is said of its numbers, nor of the text. -/
structure Lawful (F : Format) : Prop where
  isNull_null : F.isNull F.null = true
  isNull_integer (n : Int) : F.isNull (F.integer n) = false
  bool (b : Bool) : F.bool? (F.bool b) = some b
  integer {least greatest n : Int} (h : least ≤ n ∧ n ≤ greatest) :
    F.integer? least greatest (F.integer n) = some n
  text (s : String) : F.text? (F.text s) = some s
  array (ds : List F.Doc) : F.items? (F.array ds) = some ds
  partialRecord (fields : List (String × F.Doc)) (h : (fields.map Prod.fst).Nodup) :
    F.partialRecord? (fields.map Prod.fst) (F.record fields) = some (fields.map fun f => some f.2)
  variant (name : String) : F.variant? (F.text name) = some (name, none)
  tagged (name : String) (d : F.Doc) : F.variant? (F.tagged name d) = some (name, some d)

def Exact (F : Format) (d : Double) : Prop := F.double? (F.double d) = some d

def Legible (F : Format) (d : F.Doc) : Prop := F.read? (F.print d) = some d

namespace Lawful

variable (hF : F.Lawful)

include hF

theorem nat {bound k : Nat} (h : k < bound) :
    F.nat? bound (F.nat k) = some k := by
  have hk : F.integer? 0 (bound - 1) (F.integer k) = some (k : Int) :=
    hF.integer ⟨by omega, by omega⟩
  rw [nat?, Format.nat, hk]
  rfl

theorem uint16 (n : UInt16) : F.uint16? (F.nat n.toNat) = some n := by
  have hn : F.nat? (1 <<< 16) (F.nat n.toNat) = some n.toNat := hF.nat n.toNat_lt
  rw [uint16?, hn, Option.map_some, UInt16.ofNat_toNat]

theorem uint32 (n : UInt32) : F.uint32? (F.nat n.toNat) = some n := by
  have hn : F.nat? (1 <<< 32) (F.nat n.toNat) = some n.toNat := hF.nat n.toNat_lt
  rw [uint32?, hn, Option.map_some, UInt32.ofNat_toNat]

theorem uint64 (n : UInt64) : F.uint64? (F.nat n.toNat) = some n := by
  have hn : F.nat? (1 <<< 64) (F.nat n.toNat) = some n.toNat := hF.nat n.toNat_lt
  rw [uint64?, hn, Option.map_some, UInt64.ofNat_toNat]

theorem int32 (n : Int32) : F.int32? (F.integer n.toInt) = some n := by
  have hn : F.integer? Word.least Word.greatest (F.integer n.toInt) = some n.toInt :=
    hF.integer ⟨n.le_toInt, Int.le_of_lt_add_one n.toInt_lt⟩
  rw [int32?, hn, Option.map_some, Int32.ofInt_toInt]

theorem list {read : F.Doc → Option α} {make : α → F.Doc} {as : List α}
    (h : ∀ a ∈ as, read (make a) = some a) : F.list? read (F.array (as.map make)) = some as := by
  rw [list?, hF.array]
  simp only [Option.bind_eq_bind, Option.bind_some]
  induction as with
  | nil => rfl
  | cons a as ih =>
    have hrest := ih (forall_mem_cons.1 h).2
    simp [h a mem_cons_self, hrest]

theorem record (fields : List (String × F.Doc)) (h : (fields.map Prod.fst).Nodup) :
    F.record? (fields.map Prod.fst) (F.record fields) = some (fields.map Prod.snd) := by
  rw [record?, hF.partialRecord fields h]
  simp only [Option.bind_eq_bind, Option.bind_some, mapM_map]
  clear h
  induction fields with
  | nil => rfl
  | cons f fields ih => simp_all

theorem name {ofName? : String → Option α} {s : String} {a : α}
    (h : ofName? s = some a) : F.name? ofName? (F.text s) = some a := by
  simp [name?, hF.variant, h, plain?]

theorem plain {choose : String × Option F.Doc → Option β} {label : String} {b : β}
    (h : choose (label, none) = some b) : F.variant? (F.text label) >>= choose = some b := by
  rw [hF.variant]
  exact h

theorem holding {choose : String × Option F.Doc → Option β} {label : String}
    {read : F.Doc → Option α} {make : α → β} {d : F.Doc} {a : α} (h : read d = some a)
    (hchoose : choose (label, some d) = F.holding? make read (some d)) :
    F.variant? (F.tagged label d) >>= choose = some (make a) := by
  rw [hF.tagged]
  refine hchoose.trans ?_
  simp [holding?, h]

end Lawful

end Format

namespace Json

mutual

def same : Json → Json → Bool
  | null, null => true
  | bool a, bool b => a == b
  | number a, number b => a == b
  | string a, string b => a == b
  | array a, array b => sameItems a b
  | object a, object b => sameFields a b
  | _, _ => false

def sameItems : List Json → List Json → Bool
  | [], [] => true
  | a :: as, b :: bs => same a b && sameItems as bs
  | _, _ => false

def sameFields : List (Option String × Json) → List (Option String × Json) → Bool
  | [], [] => true
  | (k, a) :: as, (l, b) :: bs => k == l && same a b && sameFields as bs
  | _, _ => false

end

mutual

theorem eq_of_same {a b : Json} (h : a.same b = true) : a = b := by
  cases a <;> cases b <;> simp_all [same]
  · exact eq_of_sameItems h
  · exact eq_of_sameFields h

theorem eq_of_sameItems {as bs : List Json} (h : sameItems as bs = true) : as = bs := by
  match as, bs with
  | [], [] => rfl
  | a :: as, b :: bs =>
    rw [sameItems, Bool.and_eq_true] at h
    rw [eq_of_same h.1, eq_of_sameItems h.2]

theorem eq_of_sameFields {as bs : List (Option String × Json)} (h : sameFields as bs = true) :
    as = bs := by
  match as, bs with
  | [], [] => rfl
  | (k, a) :: as, (l, b) :: bs =>
    rw [sameFields, Bool.and_eq_true, Bool.and_eq_true, beq_iff_eq] at h
    rw [h.1.1, eq_of_same h.1.2, eq_of_sameFields h.2]

end

namespace Numeral

/-- The text of an integer is its digits, with a minus in front if it is below zero. -/
theorem toString_cases (k : Int) : (∃ n : Nat, k = n ∧ (toString k).toList = Nat.toDigits 10 n) ∨
    ∃ n : Nat, k = -(n + 1) ∧ (toString k).toList = '-' :: Nat.toDigits 10 (n + 1) := by
  cases k with
  | ofNat n => exact .inl ⟨n, rfl, String.toList_ofList⟩
  | negSucc n =>
    refine .inr ⟨n, rfl, ?_⟩
    show ("-" ++ Nat.repr (n + 1)).toList = _
    rw [String.toList_append, Nat.repr_eq_ofList_toDigits]
    exact congrArg ('-' :: ·) String.toList_ofList

theorem minus_toDigits (n : Nat) (cs : List Char) :
    minus (Nat.toDigits 10 n ++ cs) = ([], Nat.toDigits 10 n ++ cs) := by
  rw [minus]
  intro ds h
  have hmem : '-' ∈ Nat.toDigits 10 n := by
    cases hds : Nat.toDigits 10 n with
    | nil => exact absurd hds Nat.toDigits_ne_nil
    | cons c ds => rw [hds] at h; cases h; exact mem_cons_self
  exact absurd (Nat.isDigit_of_mem_toDigits (by decide) (by decide) hmem) (by decide)

theorem integer?_toString (k : Int) : integer? (toString k).toList = some k := by
  have hall (n : Nat) : (Nat.toDigits 10 n).all Char.isDigit = true := all_eq_true.2 fun c hc =>
    Nat.isDigit_of_mem_toDigits (by decide) (by decide) hc
  have hvalue (n : Nat) : Decimal.digitsValue (Nat.toDigits 10 n) = n := Nat.ofDigitChars_ten_toDigits
  obtain ⟨n, rfl, hk⟩ | ⟨n, rfl, hk⟩ := toString_cases k <;> rw [hk]
  · have hminus := minus_toDigits n []
    rw [append_nil] at hminus
    simp [integer?, hminus, hall, hvalue]
  · simp [integer?, minus, hall, hvalue]
    omega

end Numeral

theorem fieldValues_cons {k name : String} {v : Json} {fields : List (Option String × Json)} :
    fieldValues ((some k, v) :: fields) name =
      if k = name then v :: fieldValues fields name else fieldValues fields name := by
  by_cases h : k = name <;> simp [fieldValues, h]

/-- A field that no other one has the name of. -/
theorem fieldValues_record {fields : List (String × Json)} (h : (fields.map Prod.fst).Nodup)
    {f : String × Json} (hf : f ∈ fields) :
    fieldValues (fields.map fun (k, v) => (some k, v)) f.1 = [f.2] := by
  induction fields with
  | nil => cases hf
  | cons g fields ih =>
    rw [map_cons, nodup_cons] at h
    rw [map_cons, fieldValues_cons]
    obtain rfl | hf := mem_cons.1 hf
    · rw [if_pos rfl, fieldValues, filterMap_map, filterMap_eq_nil_iff.2]
      intro g hg
      refine if_neg fun heq => h.1 ?_
      rw [← Option.some.inj heq]
      exact mem_map_of_mem hg
    · have hne : g.1 ≠ f.1 := fun heq => h.1 (heq ▸ mem_map_of_mem hf)
      rw [if_neg hne]
      exact ih h.2 hf

theorem partialRecord?_record {fields : List (String × Json)} (h : (fields.map Prod.fst).Nodup) :
    partialRecord? (fields.map Prod.fst) (record fields) = some (fields.map fun f => some f.2) := by
  have hall : ∀ gs ⊆ fields, (gs.map Prod.fst).mapM
      (field? (fields.map fun (k, v) => (some k, v))) = some (gs.map fun f => some f.2) := by
    intro gs hgs
    induction gs with
    | nil => rfl
    | cons g gs ih =>
      have hg := fieldValues_record h (hgs mem_cons_self)
      have hrest := ih fun _ hf => hgs (mem_cons_of_mem _ hf)
      simp [field?, hg, hrest]
  rw [record, partialRecord?, if_pos (by simp)]
  exact hall fields (Subset.refl _)

def recovers (j : Json) : Bool := (document? (j.write 0)).any j.same

theorem legible_of_recovers {j : Json} (h : j.recovers = true) : format.Legible j := by
  show document? (String.ofList (j.write 0)).toList = some j
  rw [String.toList_ofList]
  rw [recovers] at h
  cases hread : document? (j.write 0) with
  | none => rw [hread] at h; cases h
  | some k =>
    rw [hread] at h
    rw [eq_of_same h]

theorem format_lawful : format.Lawful where
  isNull_null := rfl
  isNull_integer _ := rfl
  bool _ := rfl
  integer {_ _ n} h := by
    show integer? _ _ (integer n) = _
    rw [integer, integer?, Numeral.integer?_toString]
    exact if_pos h
  text _ := rfl
  array _ := rfl
  partialRecord _ h := partialRecord?_record h
  variant _ := rfl
  tagged _ _ := rfl

end Json

end EventScript
