import EventScript.Proofs.Streams.Decoding

/-!
# Which module a stream is of

The head of a stream gives the name, the version and the fingerprint of a module. They are compared
as one text, and a text does not say where the name in it ends: after a name that goes on with a
version, such as `a v1 x`, there are other fields that spell the same text. `Identity.text_eq_iff`
says which, in terms of the words of the text, and `Snapshot.identity_exact` what comes through the
check.
-/

namespace EventScript

open List

/-- What the head of a stream says of a module. -/
structure Identity where
  name : String
  version : Int
  fingerprint : String
deriving DecidableEq

def Module.identity (m : Module) : Identity := ⟨m.name, m.version.toNat, m.fingerprintText⟩

/-! ## Words -/

def words (s : String) : List (List Char) := s.toList.splitOn ' '

theorem words_ne_nil (s : String) : words s ≠ [] := splitOn_ne_nil _ _

theorem words_injective (h : words s = words t) : s = t := by
  have hlists := congrArg [' '].intercalate h
  rw [words, words, intercalate_splitOn, intercalate_splitOn] at hlists
  exact String.toList_inj.1 hlists

theorem words_of_not_mem (h : ' ' ∉ s.toList) : words s = [s.toList] :=
  splitOn_eq_singleton h

theorem toDigits_no_blank (hbase : 1 < base) : ' ' ∉ Nat.toDigits base n := by
  induction n using Nat.strong_induction_on with
  | _ n ih =>
    rw [Nat.toDigits_eq_if hbase]
    split
    · simp
    · have hlt : n / base < n := Nat.div_lt_self (by omega) hbase
      simp [ih _ hlt]

theorem nat_no_blank (n : Nat) : ' ' ∉ n.repr.toList := by
  rw [Nat.repr_eq_ofList_toDigits, String.toList_ofList]
  exact toDigits_no_blank (by decide)

theorem int_no_blank (n : Int) : ' ' ∉ (toString n).toList := by
  rw [Int.toString_eq_repr, Int.repr_eq_if]
  split
  · exact nat_no_blank _
  · rw [String.toList_append, mem_append]
    exact not_or_intro (by decide) (nat_no_blank _)

theorem fingerprintText_no_blank (m : Module) : ' ' ∉ m.fingerprintText.toList := by
  rw [Module.fingerprintText, Word.hex, String.toList_ofList, mem_append]
  exact not_or_intro (by simp) (toDigits_no_blank (by decide))

def versionWord (version : Int) : List Char := 'v' :: (toString version).toList

theorem versionWord_no_blank (version : Int) : ' ' ∉ versionWord version :=
  not_mem_cons_of_ne_of_not_mem (by decide) (int_no_blank version)

theorem eq_of_versionWord_eq {n : Nat} (h : versionWord v = versionWord n) : v = n := by
  have htext := String.toList_inj.1 (cons.inj h).2
  rw [Int.toString_eq_repr, Int.toString_eq_repr, Int.repr_eq_if] at htext
  split at htext
  · rename_i hpos
    have hnum := congrArg (fun t => Nat.ofDigitChars 10 t.toList 0) htext
    simp only [Int.repr, Nat.repr, String.toList_ofList, Nat.ofDigitChars_ten_toDigits] at hnum
    omega
  · -- a sign is not a digit
    have hmem : '-' ∈ n.repr.toList := by
      rw [show n.repr = (n : Int).repr from rfl, ← htext]
      simp
    rw [Nat.repr_eq_ofList_toDigits, String.toList_ofList] at hmem
    exact absurd (Nat.isDigit_of_mem_toDigits (by decide) (by decide) hmem) (by decide)

namespace Identity

def text (id : Identity) : String :=
  Reader.identityText id.name (toString id.version) id.fingerprint

theorem words_text (id : Identity) :
    words id.text = words id.name ++ versionWord id.version :: words id.fingerprint := by
  have hlist : id.text.toList = id.name.toList ++ ' ' ::
      (versionWord id.version ++ ' ' :: id.fingerprint.toList) := by
    simp [text, Reader.identityText, versionWord]
  rw [words, hlist, splitOn_append_cons_self,
    splitOn_append_cons_self_of_not_mem (versionWord_no_blank _)]
  rfl

/-- The name of the module goes on with the version of the record, and the record has the rest of
the name, the version and the fingerprint of the module for a fingerprint. -/
def Poses (id : Identity) (m : Module) : Prop :=
  ∃ between, words m.name = words id.name ++ versionWord id.version :: between ∧
    words id.fingerprint = between ++ [versionWord m.version.toNat, m.fingerprintText.toList]

theorem words_fingerprintText (m : Module) : words m.fingerprintText = [m.fingerprintText.toList] :=
  words_of_not_mem (fingerprintText_no_blank m)

theorem words_identity_text (m : Module) : words m.identity.text =
    words m.name ++ [versionWord m.version.toNat, m.fingerprintText.toList] := by
  rw [words_text, ← words_fingerprintText]
  rfl

theorem eq_identity {id : Identity} {m : Module} (hname : words m.name = words id.name)
    (hversion : versionWord id.version = versionWord m.version.toNat)
    (hfingerprint : words id.fingerprint = [m.fingerprintText.toList]) : id = m.identity := by
  rw [← words_fingerprintText] at hfingerprint
  rw [Module.identity, words_injective hname, ← words_injective hfingerprint,
    ← eq_of_versionWord_eq hversion]

/-- A record spells the text of a module if it is the record of the module or poses as it. -/
theorem text_eq_iff {id : Identity} : id.text = m.identity.text ↔ id = m.identity ∨ id.Poses m := by
  constructor
  · intro h
    have hwords := congrArg words h
    rw [words_text, words_identity_text] at hwords
    obtain ⟨x, hname, hx⟩ | ⟨x, hname, hx⟩ := append_eq_append_iff.1 hwords
    · cases x with
      | nil =>
        rw [append_nil] at hname
        obtain ⟨hversion, hfingerprint⟩ := cons.inj hx
        exact .inl (eq_identity hname hversion hfingerprint)
      | cons y between =>
        obtain ⟨rfl, hfingerprint⟩ := cons.inj hx
        exact .inr ⟨between, hname, hfingerprint⟩
    · cases x with
      | nil =>
        rw [append_nil] at hname
        obtain ⟨hversion, hfingerprint⟩ := cons.inj hx
        exact .inl (eq_identity hname.symm hversion.symm hfingerprint.symm)
      | cons y x =>
        -- the two last words of the module's text are not enough for the record's
        have hlength := congrArg length hx
        have hpos := length_pos_iff.2 (words_ne_nil id.fingerprint)
        simp only [length_append, length_cons, length_nil] at hlength
        omega
  · rintro (rfl | ⟨between, hname, hfingerprint⟩)
    · rfl
    · refine words_injective ?_
      rw [words_text, words_identity_text, hname, hfingerprint, append_assoc, cons_append]

end Identity

/-! ## Readers -/

namespace Reader

variable (m : Module)

def identity : Reader Identity := do
  let name ← taggedText
  let version ← taggedWord
  let fingerprint ← taggedText
  return ⟨name, version.toInt, fingerprint⟩

def head : Reader Identity := do
  let version ← byte
  if version ≠ streamVersion then throw (.version version)
  identity

theorem snapshot_eq : snapshot m = (do
    let found ← head
    if found.text = m.identity.text then body m
    else throw (.otherModule m.identity.text found.text)) := by
  have hcheck : (do checkIdentity m; body m) = (do
      let found ← identity
      if found.text = m.identity.text then body m
      else throw (.otherModule m.identity.text found.text)) := by
    unfold checkIdentity identity
    simp only [bind_assoc, pure_bind]
    refine bind_congr fun name => bind_congr fun version => bind_congr fun fingerprint => ?_
    split
    · rw [if_pos ‹_›]
      rfl
    · rw [if_neg ‹_›]
      rfl
  unfold snapshot head
  rw [bind_assoc]
  refine bind_congr fun version => ?_
  split
  · rfl
  · exact hcheck

variable {m}

theorem head_gives : Gives 0 head fun found => ∃ version : Int32, found.version = version.toInt :=
    by
  refine (byte_gives.bind (l := 0) fun b _ => .ite (fun _ => .throw_bind _ _) fun _ => ?_).few
  exact (taggedText_gives.bind fun name _ => taggedWord_gives.bind fun version _ =>
    taggedText_gives.map fun fingerprint _ => ⟨version, rfl⟩).few

theorem snapshot_run_of_head (h : head.run bs = .ok (found, rest)) : (snapshot m).run bs =
      (if found.text = m.identity.text then body m
        else throw (.otherModule m.identity.text found.text)).run rest := by
  rw [snapshot_eq, run_bind_ok h]

end Reader

/-- No word of the name but the first gives a version. -/
def Module.Unversioned (m : Module) : Prop :=
  ∀ version : Int32, versionWord version.toInt ∉ (words m.name).tail

namespace Identity

variable {id : Identity}

theorem Poses.versioned (h : id.Poses m) : versionWord id.version ∈ (words m.name).tail := by
  obtain ⟨between, hname, -⟩ := h
  rw [hname, tail_append_of_ne_nil (words_ne_nil _)]
  simp

end Identity

namespace Snapshot

def identityOf (bytes : List UInt8) : Except StreamError Identity := Reader.head.run' bytes

theorem identityOf_ok (h : identityOf bytes = .ok found) :
    ∃ rest, Reader.head.run bytes = .ok (found, rest) := by
  unfold identityOf at h
  rw [StateT.run'_eq] at h
  cases hrun : Reader.head.run bytes with
  | error e => rw [hrun] at h; cases h
  | ok x => rw [hrun] at h; cases h; exact ⟨x.2, rfl⟩

theorem version_of_identityOf (h : identityOf bytes = .ok found) :
    ∃ version : Int32, found.version = version.toInt := by
  obtain ⟨rest, hrun⟩ := identityOf_ok h
  exact (Reader.head_gives bytes found rest hrun).1

theorem text_of_ofBytes (h : identityOf bytes = .ok found)
    (hne : ∀ expected text, ofBytes m bytes ≠ .error (.otherModule expected text)) :
    found.text = m.identity.text := by
  obtain ⟨rest, hrun⟩ := identityOf_ok h
  by_contra htext
  refine hne m.identity.text found.text ?_
  rw [ofBytes, StateT.run'_eq, Reader.snapshot_run_of_head hrun, if_neg htext]
  rfl

/-- The check of the module is exact, but for records that pose as the module; there are no such
records for modules without a version in their names. -/
theorem identity_exact {m : Module} {bytes : List UInt8} {found : Identity}
    (h : identityOf bytes = .ok found)
    (hne : ∀ expected text, ofBytes m bytes ≠ .error (.otherModule expected text)) :
    (found = m.identity ∨ found.Poses m) ∧ (m.Unversioned →
      found.name = m.name ∧ found.version = m.version.toNat ∧
        found.fingerprint = m.fingerprintText) := by
  have hfound := Identity.text_eq_iff.1 (text_of_ofBytes h hne)
  refine ⟨hfound, fun hm => ?_⟩
  obtain rfl | hposes := hfound
  · exact ⟨rfl, rfl, rfl⟩
  · obtain ⟨version, hversion⟩ := version_of_identityOf h
    exact absurd (hversion ▸ hposes.versioned) (hm version)

end Snapshot

theorem relay_identified : relayModule.Unversioned ∧ ∃ found,
    Snapshot.identityOf forgedStream = .ok found ∧
      (∀ expected text, Snapshot.ofBytes relayModule forgedStream ≠
        .error (.otherModule expected text)) ∧
      found.name = relayModule.name ∧ found.version = relayModule.version.toNat ∧
        found.fingerprint = relayModule.fingerprintText := by
  have hplain : relayModule.Unversioned := fun version =>
    (by decide : (words relayModule.name).tail = []) ▸ not_mem_nil
  have hhead : (Snapshot.identityOf forgedStream).toOption.isSome := by decide +kernel
  have hread : (Snapshot.ofBytes relayModule forgedStream).toOption.isSome := by decide +kernel
  cases hfound : Snapshot.identityOf forgedStream with
  | error e => rw [hfound] at hhead; cases hhead
  | ok found =>
    have hne : ∀ expected text, Snapshot.ofBytes relayModule forgedStream ≠
        .error (.otherModule expected text) := by
      intro expected text h
      rw [h] at hread
      cases hread
    exact ⟨hplain, found, rfl, hne, (Snapshot.identity_exact hfound hne).2 hplain⟩

/-- The module of a script with a version in its name. -/
def versionedModule : Module := { relayModule with name := "relay v1 beta" }

/-- A stream of a module that is called `relay` and has another fingerprint. -/
def posingStream : List UInt8 :=
  Chunk.join (.bytes [streamVersion] :: (Chunk.taggedText "relay" ++ Chunk.taggedWord 1 ++
    Chunk.taggedText "beta v1 6c78e0e3bd51f1d9" ++ Chunk.taggedWord 1 ++
    [.tag .eventCode, .word Event.none.ordinal] ++ Chunk.taggedWord 5 ++ Chunk.taggedWord 65536 ++
    Chunk.taggedValues [] ++ Chunk.taggedValues [.array []]))

theorem posing_accepted : ∃ found s, Snapshot.identityOf posingStream = .ok found ∧
    Snapshot.ofBytes versionedModule posingStream = .ok s ∧ found.name ≠ versionedModule.name ∧
      found.fingerprint ≠ versionedModule.fingerprintText := by
  have hhead : (Snapshot.identityOf posingStream).toOption.any fun found =>
      decide (found.name ≠ versionedModule.name ∧
        found.fingerprint ≠ versionedModule.fingerprintText) := by
    decide +kernel
  have hread : (Snapshot.ofBytes versionedModule posingStream).toOption.isSome := by decide +kernel
  cases hfound : Snapshot.identityOf posingStream with
  | error e => rw [hfound] at hhead; cases hhead
  | ok found =>
    rw [hfound] at hhead
    cases hs : Snapshot.ofBytes versionedModule posingStream with
    | error e => rw [hs] at hread; cases hread
    | ok s => exact ⟨found, s, rfl, rfl, of_decide_eq_true hhead⟩

end EventScript
