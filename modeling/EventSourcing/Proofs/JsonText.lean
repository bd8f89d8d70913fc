import EventSourcing.Json.Printer
import EventSourcing.Json.Reader
import EventSourcing.Proofs.Text
import Mathlib.Tactic.IntervalCases
import Mathlib.Tactic.SplitIfs

/-!
# Values are read back from their text

`Json.read_text`: the text of a canonical value, in either layout, is read as that value, if it is
plain and no more than `Json.maxDepth` arrays and objects stand around one another. The parts of a
value are read with any text after them, as long as it cannot be taken for more of a number
(`Json.Delimited`): what follows a value is a comma, a closing bracket, a blank or nothing.

The reader's bound on steps never decides: twice the length of the text is enough for a value, since
each level of a value has at least its two brackets.
-/

namespace EventSourcing
namespace Json

section Strings

variable {cs r rest : List Char}

/-- The value of a hexadecimal digit is read back. -/
theorem hexValue?_hexDigit (n : Nat) (h : n < 16) : hexValue? (hexDigit n) = some n := by
  revert n
  decide

theorem readString_simple {c d : Char} (hc : c ≠ 'u') (hd : simpleEscape? c = some d)
    (h : readString r = .ok (cs, rest)) : readString ('\\' :: c :: r) = .ok (d :: cs, rest) := by
  rw [readString.eq_6 c r (by simp [hc]) (by simp [hc])]
  simp only [hd, h]
  rfl

theorem readString_unit {a b c d : Char} {n : Nat} (hn : unit? a b c d = some n) (hlt : n < 32)
    (h : readString r = .ok (cs, rest)) :
    readString ('\\' :: 'u' :: a :: b :: c :: d :: r) = .ok (Char.ofNat n :: cs, rest) := by
  have hlow : isLowSurrogate n = false := by simp [isLowSurrogate]; omega
  have hhigh : isHighSurrogate n = false := by simp [isHighSurrogate]; omega
  rw [readString.eq_def]
  simp only [hn, hlow, hhigh, Bool.false_eq_true, if_false, h]
  rfl

theorem readString_plain {c : Char} (hquote : c ≠ '"') (hslash : c ≠ '\\') (hc : ¬ c.toNat < 32)
    (h : readString r = .ok (cs, rest)) : readString (c :: r) = .ok (c :: cs, rest) := by
  rw [readString.eq_7 c r hquote (by simp [hslash]) (by simp [hslash]) (by simp [hslash])
    (by simp [hslash]), if_neg hc, h]
  rfl

/-- A character is read back from what is written for it inside quotes. -/
theorem readString_escape (c : Char) (h : readString r = .ok (cs, rest)) :
    readString (escape c ++ r) = .ok (c :: cs, rest) := by
  unfold escape
  split_ifs with hquote hslash hb hf hn hr ht hlow
  · exact readString_simple (by decide) (by rw [hquote]; rfl) h
  · exact readString_simple (by decide) (by rw [hslash]; rfl) h
  · exact readString_simple (by decide) (by rw [hb]; rfl) h
  · exact readString_simple (by decide) (by rw [hf]; rfl) h
  · exact readString_simple (by decide) (by rw [hn]; rfl) h
  · exact readString_simple (by decide) (by rw [hr]; rfl) h
  · exact readString_simple (by decide) (by rw [ht]; rfl) h
  · have hunit : unit? '0' '0' (hexDigit (c.toNat / 16)) (hexDigit (c.toNat % 16))
        = some c.toNat := by
      have h0 : hexValue? '0' = some 0 := rfl
      rw [unit?, h0, hexValue?_hexDigit _ (by omega), hexValue?_hexDigit _ (by omega)]
      simp only [Option.bind_eq_bind, Option.bind_some, Option.pure_def, Option.some.injEq]
      omega
    have hread := readString_unit hunit hlow h
    rwa [show Char.ofNat c.toNat = c from Char.ofNat_toNat c] at hread
  · exact readString_plain hquote hslash hlow h

/-- A string is read back from its text, up to the closing quote. -/
theorem readString_quoted (cs rest : List Char) :
    readString (cs.flatMap escape ++ '"' :: rest) = .ok (cs, rest) := by
  induction cs with
  | nil => rfl
  | cons c cs ih =>
    rw [List.flatMap_cons, List.append_assoc]
    exact readString_escape c ih

end Strings

section Numbers

/-- What may follow a value: nothing that a number could go on with. -/
def Delimited (rest : List Char) : Prop :=
  ∀ c ∈ rest.head?, c.isDigit = false ∧ c ≠ '.' ∧ c ≠ 'e' ∧ c ≠ 'E'

variable {rest : List Char}

theorem Delimited.takeWhile_eq (h : Delimited rest) : rest.takeWhile Char.isDigit = [] := by
  cases rest with
  | nil => rfl
  | cons c r => rw [List.takeWhile_cons, (h c rfl).1, if_neg Bool.false_ne_true]

/-- The number that digits spell, after a number before them. -/
theorem digits_le (s : Nat) (ds : List Char) :
    s ≤ ds.foldl (fun n c => n * 10 + digitValue c) s := by
  induction ds generalizing s with
  | nil => exact Nat.le_refl s
  | cons d ds ih => exact Nat.le_trans (by omega) (ih (s * 10 + digitValue d))

/-- Digits are all taken if their number stays below `2 ^ 64`. -/
theorem takeDigits_digits {s taken : Nat} {ds : List Char} (hds : ∀ d ∈ ds, d.isDigit = true)
    (hlt : ds.foldl (fun n c => n * 10 + digitValue c) s < 18446744073709551616)
    (hrest : Delimited rest) :
    takeDigits s taken (ds ++ rest)
      = (ds.foldl (fun n c => n * 10 + digitValue c) s, taken + ds.length, rest) := by
  induction ds generalizing s taken with
  | nil =>
    cases rest with
    | nil => rfl
    | cons c r => simp [takeDigits, (hrest c rfl).1]
  | cons d ds ih =>
    obtain ⟨hd, hds⟩ := List.forall_mem_cons.1 hds
    have hle := digits_le (s * 10 + digitValue d) ds
    rw [List.foldl_cons] at hlt
    rw [List.cons_append, takeDigits, if_pos ⟨hd, by omega⟩, ih hds hlt, List.foldl_cons,
      List.length_cons, Nat.add_assoc, Nat.add_comm 1]

/-- The digits of a number spell it. -/
theorem foldl_toDigits (m : Nat) :
    (Nat.toDigits 10 m).foldl (fun n c => n * 10 + digitValue c) 0 = m := by
  have h := Nat.ofDigitChars_ten_toDigits (n := m)
  rw [Nat.ofDigitChars_eq_foldl] at h
  simpa only [Nat.mul_comm, digitValue, Char.reduceToNat] using h

/-- The digits of a number that is not zero do not begin with a zero. -/
theorem head_toDigits {m : Nat} (hm : 0 < m) {d : Char} {ds : List Char}
    (h : Nat.toDigits 10 m = d :: ds) : d ≠ '0' := by
  induction m using Nat.strongRecOn generalizing ds with
  | ind m ih =>
    rcases Nat.lt_or_ge m 10 with hlt | hle
    · rw [Nat.toDigits_of_lt_base hlt] at h
      obtain ⟨rfl, -⟩ := List.cons.inj h
      interval_cases m <;> decide
    · rw [Nat.toDigits_of_base_le (by decide) hle] at h
      cases hq : Nat.toDigits 10 (m / 10) with
      | nil => exact absurd hq Nat.toDigits_ne_nil
      | cons e es =>
        rw [hq, List.cons_append] at h
        obtain ⟨rfl, -⟩ := List.cons.inj h
        exact ih (m / 10) (by omega) (by omega) hq

theorem isDigit_of_mem {m : Nat} {c : Char} (hc : c ∈ Nat.toDigits 10 m) : c.isDigit = true :=
  Nat.isDigit_of_mem_toDigits (by decide) (by decide) hc

/-- What follows the digits of an integer. -/
theorem readAfterWhole_delimited {negative : Bool} {m : Nat} {n : Number}
    (hn : integerOf negative m = some n) (hrest : Delimited rest) :
    readAfterWhole negative m rest = .ok (n, rest) := by
  unfold readAfterWhole
  split
  · exact absurd rfl (hrest _ rfl).2.1
  · exact absurd rfl (hrest _ rfl).2.2.1
  · exact absurd rfl (hrest _ rfl).2.2.2
  · rw [hn]

/-- The digits of a number are read back, as an integer that is kept exactly. -/
theorem readNumber_digits {negative : Bool} {m : Nat} {n : Number} (hm : m < 18446744073709551616)
    (hn : integerOf negative m = some n) (hrest : Delimited rest) :
    readNumber negative (Nat.toDigits 10 m ++ rest) = .ok (n, rest) := by
  have hdigits : ∀ c ∈ Nat.toDigits 10 m, c.isDigit = true := fun c hc => isDigit_of_mem hc
  have hvalue := foldl_toDigits m
  by_cases h0 : m = 0
  · subst h0
    show readNumber negative ('0' :: rest) = _
    rw [readNumber, hrest.takeWhile_eq]
    exact readAfterWhole_delimited hn hrest
  have htake : takeDigits 0 0 (Nat.toDigits 10 m ++ rest)
      = (m, 0 + (Nat.toDigits 10 m).length, rest) := by
    rw [takeDigits_digits hdigits (by rwa [hvalue]) hrest, hvalue]
  cases hds : Nat.toDigits 10 m with
  | nil => exact absurd hds Nat.toDigits_ne_nil
  | cons d ds =>
    rw [hds, List.cons_append] at htake
    rw [List.cons_append, readNumber.eq_3 _ _ _ (by simp [head_toDigits (by omega) hds]),
      if_pos (hdigits d (by simp [hds])), htake]
    simp only [hrest.takeWhile_eq, List.isEmpty_nil, if_true]
    exact readAfterWhole_delimited hn hrest

/-- An integer is read back from its text. -/
theorem readInteger_intText {n : Int} (hn : exactInt n = true) (hrest : Delimited rest) :
    (∃ r, intText n = '-' :: r ∧ readNumber true (r ++ rest) = .ok (.int n, rest)) ∨
      (∃ d r, intText n = d :: r ∧ d.isDigit = true ∧
        readNumber false (d :: r ++ rest) = .ok (.int n, rest)) := by
  simp only [exactInt, Bool.and_eq_true, decide_eq_true_eq] at hn
  unfold intText
  split
  · refine .inl ⟨_, rfl, readNumber_digits (by omega) ?_ hrest⟩
    rw [integerOf, if_pos rfl, if_pos (by omega)]
    congr 2
    omega
  · have hread : readNumber false (Nat.toDigits 10 n.natAbs ++ rest) = .ok (.int n, rest) :=
      readNumber_digits (by omega) (by rw [integerOf, if_neg Bool.false_ne_true]; congr 2; omega)
        hrest
    have hdigits : ∀ c ∈ Nat.toDigits 10 n.natAbs, c.isDigit = true := fun c hc =>
      isDigit_of_mem hc
    have hne : Nat.toDigits 10 n.natAbs ≠ [] := Nat.toDigits_ne_nil
    generalize Nat.toDigits 10 n.natAbs = ds at hdigits hne hread ⊢
    cases ds with
    | nil => exact absurd rfl hne
    | cons d ds => exact .inr ⟨d, ds, rfl, hdigits d (List.mem_cons_self ..), hread⟩

end Numbers

section Blanks

variable {layout : Layout} {c : Char} {cs ds : List Char}

theorem skipBlanks_of_ne (h : isBlank c = false) : skipBlanks (c :: cs) = c :: cs := by
  rw [skipBlanks, List.dropWhile_cons, h, if_neg Bool.false_ne_true]

theorem skipBlanks_of_blank (h : isBlank c = true) : skipBlanks (c :: cs) = skipBlanks cs := by
  rw [skipBlanks, List.dropWhile_cons, if_pos h, skipBlanks]

theorem isBlank_of_isDigit (h : c.isDigit = true) : isBlank c = false := by
  simp only [isBlank, Bool.or_eq_false_iff, decide_eq_false_iff_not]
  refine ⟨⟨⟨?_, ?_⟩, ?_⟩, ?_⟩ <;> rintro rfl <;> exact absurd h (by decide)

/-- The blanks that a layout puts before an item are skipped. -/
@[simp] theorem skipBlanks_newline (level : Nat) :
    skipBlanks (Layout.newline layout level ++ cs) = skipBlanks cs := by
  cases layout with
  | compact => rfl
  | indented =>
    rw [Layout.newline, List.cons_append, skipBlanks_of_blank rfl]
    induction 2 * level with
    | zero => rfl
    | succ n ih => rw [List.replicate_succ, List.cons_append, skipBlanks_of_blank rfl, ih]

/-- A value may stand after blanks. -/
theorem readValue_congr (h : skipBlanks cs = skipBlanks ds) (steps depth : Nat) :
    readValue steps depth cs = readValue steps depth ds := by
  cases steps with
  | zero => rfl
  | succ steps => rw [readValue, readValue, h]

theorem delimited_newline (level : Nat) (h : Delimited cs) :
    Delimited (Layout.newline layout level ++ cs) := by
  cases layout with
  | compact => exact h
  | indented =>
    rintro c ⟨rfl⟩
    decide

theorem delimited_items (level : Nat) (h : Delimited cs) (xs : List Json) :
    Delimited (itemsText layout level xs ++ cs) := by
  cases xs with
  | nil => rwa [itemsText]
  | cons x xs =>
    rintro c ⟨rfl⟩
    decide

theorem delimited_fields (level : Nat) (h : Delimited cs) (xs : Fields) :
    Delimited (fieldsText layout level xs ++ cs) := by
  cases xs with
  | nil => rwa [fieldsText]
  | cons x xs =>
    rintro c ⟨rfl⟩
    decide

theorem delimited_bracket (h : c = ']' ∨ c = '\x7d') : Delimited (c :: cs) := by
  rintro d ⟨rfl⟩
  rcases h with rfl | rfl <;> decide

/-- The text of a value begins with a character that is no blank and closes no array. -/
theorem exists_textAt {v : Json} (h : v.Canonical) (level : Nat) : ∃ c r,
    textAt layout level v = c :: r ∧ isBlank c = false ∧ c ≠ ']' := by
  match v with
  | .null | .bool true | .bool false | .string _ | .array [] | .array (_ :: _) | .object []
  | .object (_ :: _) => exact ⟨_, _, rfl, rfl, by decide⟩
  | .number (.float _) => exact h.elim
  | .number (.int n) =>
    have hn : exactInt n = true := h
    have hnil : Delimited [] := fun _ hc => nomatch hc
    obtain ⟨r, he, -⟩ | ⟨d, r, he, hd, -⟩ := readInteger_intText hn hnil
    · exact ⟨_, _, he, rfl, by decide⟩
    · refine ⟨d, r, he, isBlank_of_isDigit hd, ?_⟩
      rintro rfl
      exact absurd hd (by decide)

end Blanks

section Fields

theorem insert_of_lt {key : String} {value : Json} {fields : Fields}
    (h : ∀ f ∈ fields, f.1 < key) : Fields.insert key value fields = fields ++ [(key, value)] := by
  induction fields with
  | nil => rfl
  | cons f fields ih =>
    obtain ⟨hf, hfields⟩ := List.forall_mem_cons.1 h
    obtain ⟨k, v⟩ := f
    rw [Fields.insert, if_neg (String.lt_asymm hf), if_neg (fun he => String.lt_irrefl _ (he ▸ hf)),
      ih hfields]
    rfl

/-- Fields whose keys ascend are kept as they come. -/
theorem merge_of_sorted {old new : Fields} (h : Fields.Sorted (old ++ new)) :
    Fields.merge old new = old ++ new := by
  induction new generalizing old with
  | nil => exact (List.append_nil old).symm
  | cons f new ih =>
    have hlast : ∀ g ∈ old, g.1 < f.1 := fun g hg =>
      (List.pairwise_append.1 h).2.2 g hg f (List.mem_cons_self ..)
    show Fields.merge (Fields.insert f.1 f.2 old) new = _
    rw [insert_of_lt hlast, ih (by rwa [List.append_assoc]), List.append_assoc]
    rfl

theorem ofFields_of_sorted {fields : Fields} (h : fields.Sorted) :
    ofFields fields = .object fields := by
  rw [ofFields, Fields.ofList, merge_of_sorted (by rwa [List.nil_append]), List.nil_append]

end Fields

section Values

variable {layout : Layout} {cs tail rest : List Char} {x : Json} {xs : List Json} {fs : Fields}
  {k : String} {n : Number} {steps depth : Nat}

/-- Where no bracket opens, what is read is neither an array nor an object. -/
theorem readValue_scalar {c : Char} (hblank : isBlank c = false) (hc : c ≠ '[' ∧ c ≠ '\x7b') :
    readValue (steps + 1) depth (c :: cs) = (readScalar (c :: cs)).mapError .text := by
  rw [readValue, skipBlanks_of_ne hblank]
  split <;> rename_i heq
  · cases heq
    exact absurd rfl hc.1
  · cases heq
    exact absurd rfl hc.2
  · rfl

/-- A digit begins a number. -/
theorem readScalar_digit {d : Char} (hd : d.isDigit = true) :
    readScalar (d :: cs) = (readNumber false (d :: cs)).map fun p => (.number p.1, p.2) := by
  rw [readScalar.eq_def]
  split <;> rename_i heq <;> cases heq
  iterate 5 exact absurd hd (by decide)
  rw [if_pos hd]
  cases readNumber false (d :: cs) <;> rfl

theorem ne_bracket_of_isDigit {d : Char} (hd : d.isDigit = true) : d ≠ '[' ∧ d ≠ '\x7b' := by
  constructor <;> rintro rfl <;> exact absurd hd (by decide)

/-- A value that begins with a digit is a number. -/
theorem readValue_digit {d : Char} (hd : d.isDigit = true)
    (h : readNumber false (d :: cs) = .ok (n, rest)) :
    readValue (steps + 1) depth (d :: cs) = .ok (.number n, rest) := by
  rw [readValue_scalar (isBlank_of_isDigit hd) (ne_bracket_of_isDigit hd), readScalar_digit hd, h]
  rfl

/-- The first item of an array that has items. -/
theorem readItems_first (hcs : ∃ c r, cs = c :: r ∧ isBlank c = false ∧ c ≠ ']') (level : Nat)
    (hx : readValue steps depth (cs ++ tail) = .ok (x, tail))
    (hxs : readItems steps depth false tail = .ok (xs, rest)) :
    readItems (steps + 1) depth true (Layout.newline layout level ++ (cs ++ tail))
      = .ok (x :: xs, rest) := by
  obtain ⟨c, r, rfl, hblank, hclose⟩ := hcs
  rw [List.cons_append] at hx ⊢
  rw [readItems, skipBlanks_newline, skipBlanks_of_ne hblank]
  split <;> rename_i heq
  · cases heq
  · cases heq
    exact absurd rfl hclose
  · cases heq
    simp only [if_true, hx, hxs, bind, Except.bind, pure, Except.pure]

/-- A later item, after its comma. -/
theorem readItems_next (hcs : ∃ c r, cs = c :: r ∧ isBlank c = false ∧ c ≠ ']') (level : Nat)
    (hx : readValue steps depth (cs ++ tail) = .ok (x, tail))
    (hxs : readItems steps depth false tail = .ok (xs, rest)) :
    readItems (steps + 1) depth false (',' :: (Layout.newline layout level ++ (cs ++ tail)))
      = .ok (x :: xs, rest) := by
  obtain ⟨c, r, rfl, hblank, hclose⟩ := hcs
  rw [List.cons_append] at hx ⊢
  rw [readItems, skipBlanks_of_ne rfl]
  split <;> rename_i heq <;> cases heq
  rw [if_neg Bool.false_ne_true, if_pos rfl, skipBlanks_newline, skipBlanks_of_ne hblank]
  split <;> rename_i heq
  · cases heq
    exact absurd rfl hclose
  · simp only [hx, hxs, bind, Except.bind, pure, Except.pure]

/-- A field is read back if its value and the fields after it are. -/
theorem readField_of (hx : readValue steps depth (cs ++ tail) = .ok (x, tail))
    (hxs : readFields steps depth false tail = .ok (fs, rest)) :
    readField (steps + 1) depth (quote k ++ (Layout.colon layout ++ (cs ++ tail)))
      = .ok ((k, x) :: fs, rest) := by
  have hcolon : ∃ ds, Layout.colon layout ++ (cs ++ tail) = ':' :: ds ∧
      readValue steps depth ds = .ok (x, tail) := by
    cases layout with
    | compact => exact ⟨_, rfl, hx⟩
    | indented =>
      refine ⟨' ' :: (cs ++ tail), rfl, ?_⟩
      rw [← hx]
      exact readValue_congr (skipBlanks_of_blank rfl) steps depth
  obtain ⟨ds, hds, hread⟩ := hcolon
  rw [hds, quote, List.cons_append, List.append_assoc, readField]
  simp only [List.singleton_append, readString_quoted, Except.mapError, bind, Except.bind,
    skipBlanks_of_ne (show isBlank ':' = false from rfl), hread, hxs, pure, Except.pure,
    String.ofList_toList]

/-- The first field of an object that has fields. -/
theorem readFields_first (level : Nat)
    (h : readField steps depth (quote k ++ cs) = .ok (fs, rest)) :
    readFields (steps + 1) depth true (Layout.newline layout level ++ (quote k ++ cs))
      = .ok (fs, rest) := by
  rw [readFields, skipBlanks_newline, quote, List.cons_append, skipBlanks_of_ne rfl]
  exact h

/-- A later field, after its comma. -/
theorem readFields_next (level : Nat)
    (h : readField steps depth (quote k ++ cs) = .ok (fs, rest)) :
    readFields (steps + 1) depth false (',' :: (Layout.newline layout level ++ (quote k ++ cs)))
      = .ok (fs, rest) := by
  change readField steps depth (skipBlanks (Layout.newline layout level ++ (quote k ++ cs))) = _
  rw [skipBlanks_newline, quote, List.cons_append, skipBlanks_of_ne rfl]
  exact h

/-- A key in quotes, where fields begin, is seen to be `rawKey` or not. -/
theorem afterRawKey?_quote (level : Nat) :
    afterRawKey? (Layout.newline layout level ++ (quote k ++ cs))
      = if k = rawKey then some cs else none := by
  rw [afterRawKey?, skipBlanks_newline, quote, List.cons_append, skipBlanks_of_ne rfl,
    List.append_assoc]
  simp only [List.singleton_append, readString_quoted, String.ofList_toList]

/-- A string in quotes is read back. -/
theorem readScalar_quote (s : String) :
    readScalar (quote s ++ cs) = .ok (.string s, cs) := by
  rw [quote, List.cons_append, List.append_assoc, readScalar]
  simp only [List.singleton_append, readString_quoted, bind, Except.bind, pure, Except.pure,
    String.ofList_toList]

mutual

/-- A plain canonical value is read back from its text, whatever delimited text follows it. -/
theorem readValue_textAt : ∀ (v : Json) (level steps depth : Nat) (rest : List Char),
    v.Canonical → v.Plain → v.depth ≤ depth → 2 * (textAt layout level v).length ≤ steps →
      Delimited rest → readValue steps depth (textAt layout level v ++ rest) = .ok (v, rest)
  | .null, _, steps + 1, _, _, _, _, _, _, _ => rfl
  | .bool true, _, steps + 1, _, _, _, _, _, _, _ => rfl
  | .bool false, _, steps + 1, _, _, _, _, _, _, _ => rfl
  | .string s, level, steps + 1, depth, rest, _, _, _, _, _ => by
    show readValue (steps + 1) depth ('"' :: (s.toList.flatMap escape ++ ['"'] ++ rest)) = _
    rw [readValue_scalar rfl (by decide)]
    exact congrArg (Except.mapError _) (readScalar_quote s)
  | .number (.float _), _, _, _, _, h, _, _, _, _ => h.elim
  | .number (.int n), level, steps, depth, rest, h, _, _, hs, hrest => by
    change 2 * (intText n).length ≤ steps at hs
    show readValue steps depth (intText n ++ rest) = _
    obtain ⟨r, he, hread⟩ | ⟨d, r, he, hd, hread⟩ := readInteger_intText h hrest <;>
      rw [he, List.length_cons] at hs <;>
      obtain ⟨steps, rfl⟩ : ∃ m, steps = m + 1 := ⟨steps - 1, by omega⟩ <;>
      rw [he, List.cons_append]
    · rw [readValue_scalar rfl (by decide), readScalar, hread]
      rfl
    · exact readValue_digit hd hread
  | .array [], _, steps + 2, depth + 1, _, _, _, _, _, _ => rfl
  | .array (x :: xs), level, steps, depth + 1, rest, h, hp, hd, hs, _ => by
    simp only [textAt, List.length_cons, List.length_append] at hs
    obtain ⟨steps, rfl⟩ : ∃ m, steps = m + 1 + 1 := ⟨steps - 2, by omega⟩
    obtain ⟨hx, hxs⟩ : x.Canonical ∧ CanonicalItems xs := h
    obtain ⟨hpx, hpxs⟩ := plainItems_cons.1 (plain_array.1 hp)
    have hdepth : max x.depth (depthItems xs) + 1 ≤ depth + 1 := hd
    simp only [textAt, List.cons_append, List.append_assoc, List.nil_append]
    rw [readValue, skipBlanks_of_ne rfl]
    simp only
    rw [readItems_first (exists_textAt hx (level + 1)) (level + 1)
      (readValue_textAt x (level + 1) steps depth _ hx hpx (by omega) (by omega) ?_)
      (readItems_itemsText xs (level + 1) level steps depth rest hxs hpxs (by omega) (by omega))]
    · rfl
    · exact delimited_items _ (delimited_newline _ (delimited_bracket (.inl rfl))) xs
  | .object [], _, steps + 2, depth + 1, _, _, _, _, _, _ => rfl
  | .object ((k, x) :: fs), level, steps, depth + 1, rest, h, hp, hd, hs, _ => by
    simp only [textAt, quote, List.length_cons, List.length_append] at hs
    obtain ⟨steps, rfl⟩ : ∃ m, steps = m + 1 + 1 + 1 := ⟨steps - 3, by omega⟩
    obtain ⟨hsorted, hx, hfs⟩ : Fields.Sorted ((k, x) :: fs) ∧ x.Canonical ∧ CanonicalFields fs := h
    obtain ⟨hfirst, hpx, hpfs⟩ := plain_object.1 hp |>.imp_right plainFields_cons.1
    have hk : k ≠ rawKey := of_decide_eq_false hfirst
    have hdepth : max x.depth (depthFields fs) + 1 ≤ depth + 1 := hd
    simp only [textAt, List.cons_append, List.append_assoc, List.nil_append]
    rw [readValue, skipBlanks_of_ne rfl]
    simp only
    rw [afterRawKey?_quote, if_neg hk]
    simp only
    rw [readFields_first (level + 1) (readField_of
      (readValue_textAt x (level + 1) steps depth _ hx hpx (by omega) (by omega) ?_)
      (readFields_fieldsText fs (level + 1) level steps depth rest hfs hpfs (by omega)
        (by omega)))]
    · show Except.ok (ofFields ((k, x) :: fs), rest) = _
      rw [ofFields_of_sorted hsorted]
    · exact delimited_fields _ (delimited_newline _ (delimited_bracket (.inr rfl))) fs

/-- The items after the first one are read back, up to the closing bracket. -/
theorem readItems_itemsText : ∀ (xs : List Json) (level close steps depth : Nat)
    (rest : List Char), CanonicalItems xs → PlainItems xs → depthItems xs ≤ depth →
      2 * (itemsText layout level xs).length + 1 ≤ steps →
      readItems steps depth false
        (itemsText layout level xs ++ (Layout.newline layout close ++ ']' :: rest)) = .ok (xs, rest)
  | [], _, _, steps + 1, _, _, _, _, _, _ => by
    rw [itemsText, List.nil_append, readItems, skipBlanks_newline, skipBlanks_of_ne rfl]
    rfl
  | x :: xs, level, close, steps + 1, depth, rest, h, hp, hd, hs => by
    simp only [itemsText, List.length_cons, List.length_append] at hs
    obtain ⟨hx, hxs⟩ : x.Canonical ∧ CanonicalItems xs := h
    obtain ⟨hpx, hpxs⟩ := plainItems_cons.1 hp
    have hdepth : max x.depth (depthItems xs) ≤ depth := hd
    simp only [itemsText, List.cons_append, List.append_assoc]
    refine readItems_next (exists_textAt hx level) level
      (readValue_textAt x level steps depth _ hx hpx (by omega) (by omega) ?_)
      (readItems_itemsText xs level close steps depth rest hxs hpxs (by omega) (by omega))
    exact delimited_items _ (delimited_newline _ (delimited_bracket (.inl rfl))) xs

/-- The fields after the first one are read back, up to the closing bracket. -/
theorem readFields_fieldsText : ∀ (fs : Fields) (level close steps depth : Nat)
    (rest : List Char), CanonicalFields fs → PlainFields fs → depthFields fs ≤ depth →
      2 * (fieldsText layout level fs).length + 1 ≤ steps →
      readFields steps depth false
        (fieldsText layout level fs ++ (Layout.newline layout close ++ '\x7d' :: rest))
          = .ok (fs, rest)
  | [], _, _, steps + 1, _, _, _, _, _, _ => by
    rw [fieldsText, List.nil_append, readFields, skipBlanks_newline, skipBlanks_of_ne rfl]
    rfl
  | (k, x) :: fs, level, close, steps, depth, rest, h, hp, hd, hs => by
    simp only [fieldsText, List.length_cons, List.length_append] at hs
    obtain ⟨steps, rfl⟩ : ∃ m, steps = m + 2 := ⟨steps - 2, by omega⟩
    obtain ⟨hx, hfs⟩ : x.Canonical ∧ CanonicalFields fs := h
    obtain ⟨hpx, hpfs⟩ := plainFields_cons.1 hp
    have hdepth : max x.depth (depthFields fs) ≤ depth := hd
    simp only [fieldsText, List.cons_append, List.append_assoc]
    refine readFields_next level (readField_of
      (readValue_textAt x level steps depth _ hx hpx (by omega) (by omega) ?_)
      (readFields_fieldsText fs level close steps depth rest hfs hpfs (by omega) (by omega)))
    exact delimited_fields _ (delimited_newline _ (delimited_bracket (.inr rfl))) fs

end

/-- **Values are read back from their text.**  The text of a plain canonical value, in either
layout, is that value again when it is read, unless too many arrays and objects stand around one
another. -/
theorem read_text (layout : Layout) {v : Json} (h : v.Canonical) (hp : v.Plain)
    (hd : v.depth ≤ maxDepth) : read (v.text layout) = .ok v := by
  have hread : readValue (2 * (v.text layout).length + 2) maxDepth (v.text layout ++ [])
      = .ok (v, []) :=
    readValue_textAt v 0 _ maxDepth [] h hp hd (Nat.le_add_right ..) (by simp [Delimited])
  rw [List.append_nil] at hread
  rw [read, hread]
  rfl

end Values
end Json
end EventSourcing
