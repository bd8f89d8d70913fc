import EventSourcing.Proofs.JsonReader

/-!
# How far a value is read

Not every value is read back from its text as it was: a floating-point number may come back as
another one, keys that are not in order are put in order, and an object under `Json.rawKey` comes
back as what its string spells. But whatever is read, the reader stops where the text of the value
ends (`Json.readValue_extent`), and so an array has as many items as the one that was written
(`Json.read_array_length`). A list of events that can be read at all has as many events as it was
written with.

A text that is read also tells something of the value that it was written for (`Json.Extent`): where
`rawKey` is the first key it is the only one, and a plain value is no deeper than the bound. Since
`rawKey` is never the only key of what was read, a canonical value is read back from its text if and
only if it is plain and not too deep (`Json.read_text_iff`).

The text of a number is digits, then perhaps a point and digits, then perhaps a mark, a sign and
digits (`Json.Spelled`). The reader passes over all of them: a digit too many for the significand is
dropped, not left.
-/

namespace EventSourcing
namespace Json

/-- Digits only. -/
def Digits (cs : List Char) : Prop := ∀ c ∈ cs, c.isDigit = true

/-- Nothing, or a point and digits. -/
def FractionText (cs : List Char) : Prop := cs = [] ∨ ∃ ds, cs = '.' :: ds ∧ Digits ds

/-- Nothing, or a mark, a sign and digits. -/
def ExponentText (cs : List Char) : Prop :=
  cs = [] ∨ ∃ sign ds, cs = 'e' :: sign :: ds ∧ (sign = '+' ∨ sign = '-') ∧ Digits ds

/-- The text of a number without its sign. -/
def Spelled (cs : List Char) : Prop :=
  cs ≠ [] ∧ ∃ whole fraction exponent, cs = whole ++ (fraction ++ exponent) ∧ Digits whole ∧
    FractionText fraction ∧ ExponentText exponent

section Numbers

variable {negative : Bool} {s k : Nat} {e : Int} {cs ds more fraction exponent rest r : List Char}
  {n : Number}

theorem Digits.append (h : Digits cs) (h' : Digits ds) : Digits (cs ++ ds) := by
  intro c hc
  rcases List.mem_append.1 hc with hc | hc
  · exact h c hc
  · exact h' c hc

theorem Digits.takeWhile_append (h : Digits ds) (hrest : rest.takeWhile Char.isDigit = []) :
    (ds ++ rest).takeWhile Char.isDigit = ds := by
  rw [List.takeWhile_append_of_pos h, hrest, List.append_nil]

/-- Digits that are not taken are left before what follows them. -/
theorem takeDigits_append (hds : Digits ds) (hrest : rest.takeWhile Char.isDigit = []) (s k : Nat) :
    ∃ t j more, takeDigits s k (ds ++ rest) = (t, j, more ++ rest) ∧ Digits more := by
  induction ds generalizing s k with
  | nil =>
    refine ⟨s, k, [], ?_, nofun⟩
    cases rest with
    | nil => rfl
    | cons c rest =>
      have hc : c.isDigit = false := by
        by_contra hdigit
        rw [List.takeWhile_cons, if_pos (by simpa using hdigit)] at hrest
        cases hrest
      rw [List.nil_append, takeDigits, if_neg (by simp [hc])]
  | cons d ds ih =>
    rw [List.cons_append, takeDigits]
    split
    · exact ih (fun c hc => hds c (List.mem_cons_of_mem _ hc)) _ _
    · exact ⟨s, k, d :: ds, rfl, hds⟩

theorem ExponentText.takeWhile_append (h : ExponentText exponent) (hrest : Delimited rest) :
    (exponent ++ rest).takeWhile Char.isDigit = [] := by
  obtain rfl | ⟨sign, ds, rfl, -, -⟩ := h
  · exact hrest.takeWhile_eq
  · rfl

theorem FractionText.takeWhile_append (hf : FractionText fraction) (he : ExponentText exponent)
    (hrest : Delimited rest) :
    (fraction ++ (exponent ++ rest)).takeWhile Char.isDigit = [] := by
  obtain rfl | ⟨ds, rfl, -⟩ := hf
  · exact he.takeWhile_append hrest
  · rfl

theorem floatOf_extent (h : floatOf negative s e rest = .ok (n, r)) : r = rest := by
  unfold floatOf at h
  split at h
  · cases h
    rfl
  · cases h

theorem readExponent_extent {sign : Char} (hsign : sign = '+' ∨ sign = '-') (hds : Digits ds)
    (hrest : Delimited rest)
    (h : readExponent negative s e (sign :: (ds ++ rest)) = .ok (n, r)) : r = rest := by
  have htake := hds.takeWhile_append hrest.takeWhile_eq
  unfold readExponent at h
  rcases hsign with rfl | rfl <;> simp only [htake, List.drop_left] at h <;> split at h
  · cases h
  · exact floatOf_extent h
  · cases h
  · exact floatOf_extent h

theorem readScale_extent (he : ExponentText exponent) (hrest : Delimited rest)
    (h : readScale negative s e (exponent ++ rest) = .ok (n, r)) : r = rest := by
  obtain rfl | ⟨sign, ds, rfl, hsign, hds⟩ := he
  · rw [List.nil_append] at h
    unfold readScale at h
    split at h
    · exact absurd rfl (hrest _ rfl).2.2.1
    · exact absurd rfl (hrest _ rfl).2.2.2
    · exact floatOf_extent h
  · exact readExponent_extent hsign hds hrest h

theorem readFraction_extent (hds : Digits ds) (he : ExponentText exponent) (hrest : Delimited rest)
    (h : readFraction negative s e (ds ++ (exponent ++ rest)) = .ok (n, r)) : r = rest := by
  have hnone := he.takeWhile_append hrest
  obtain ⟨t, j, more, htake, hmore⟩ := takeDigits_append hds hnone s 0
  unfold readFraction at h
  simp only [htake, hmore.takeWhile_append hnone, List.drop_left] at h
  split at h
  · cases h
  · exact readScale_extent he hrest h

theorem readAfterWhole_extent (hf : FractionText fraction) (he : ExponentText exponent)
    (hrest : Delimited rest)
    (h : readAfterWhole negative s (fraction ++ (exponent ++ rest)) = .ok (n, r)) : r = rest := by
  obtain rfl | ⟨ds, rfl, hds⟩ := hf
  · obtain rfl | ⟨sign, ds, rfl, hsign, hds⟩ := he
    · rw [List.nil_append, List.nil_append] at h
      unfold readAfterWhole at h
      split at h
      · exact absurd rfl (hrest _ rfl).2.1
      · exact absurd rfl (hrest _ rfl).2.2.1
      · exact absurd rfl (hrest _ rfl).2.2.2
      · split at h
        · cases h
          rfl
        · cases h
    · exact readExponent_extent hsign hds hrest h
  · exact readFraction_extent hds he hrest h

/-- A number is read to the end of its text. -/
theorem readNumber_extent (hcs : Spelled cs) (hrest : Delimited rest)
    (h : readNumber negative (cs ++ rest) = .ok (n, r)) : r = rest := by
  obtain ⟨hne, whole, fraction, exponent, rfl, hwhole, hf, he⟩ := hcs
  have hnone := hf.takeWhile_append he hrest
  rw [List.append_assoc, List.append_assoc] at h
  cases whole with
  | nil =>
    -- without a digit there is no number
    rw [List.nil_append] at h hne
    obtain rfl | ⟨ds, rfl, -⟩ := hf
    · obtain rfl | ⟨sign, ds, rfl, -, -⟩ := he
      · exact absurd rfl hne
      · cases h
    · cases h
  | cons d whole =>
    have hd : d.isDigit = true := hwhole d (List.mem_cons_self ..)
    rw [List.cons_append] at h
    unfold readNumber at h
    split at h <;> rename_i heq <;> cases heq
    · -- after a zero there is no other digit
      split at h
      · rename_i hempty
        have hdigits : Digits whole := fun c hc => hwhole c (List.mem_cons_of_mem _ hc)
        rw [hdigits.takeWhile_append hnone, List.isEmpty_iff] at hempty
        rw [hempty, List.nil_append] at h
        exact readAfterWhole_extent hf he hrest h
      · cases h
    · obtain ⟨t, j, more, htake, hmore⟩ := takeDigits_append hwhole hnone 0 0
      rw [List.cons_append] at htake
      rw [if_pos hd] at h
      simp only [htake, hmore.takeWhile_append hnone, List.drop_left] at h
      split at h
      · rename_i hempty
        rw [List.isEmpty_iff.1 hempty, List.nil_append] at h
        exact readAfterWhole_extent hf he hrest h
      · obtain rfl | ⟨ds, rfl, hds⟩ := hf
        · rw [List.nil_append] at h
          split at h
          · rename_i heq
            obtain rfl | ⟨sign, ds, rfl, -, -⟩ := he
            · rw [List.nil_append] at heq
              exact absurd rfl (hrest '.' (by rw [heq]; rfl)).2.1
            · cases heq
          · exact readScale_extent he hrest h
        · exact readFraction_extent hds he hrest h

end Numbers

section Spelling

theorem digits_toDigits (n : Nat) : Digits (Nat.toDigits 10 n) := fun _ hc => isDigit_of_mem hc

theorem digits_replicate (n : Nat) : Digits (List.replicate n '0') := fun c hc => by
  rw [List.eq_of_mem_replicate hc]
  rfl

theorem digits_significant (n : Nat) : Digits (Binary64.significantDigits n) := fun c hc =>
  digits_toDigits n c <| by
    rw [Binary64.significantDigits, List.mem_reverse] at hc
    exact List.mem_reverse.1 ((List.dropWhile_sublist _).mem hc)

theorem digits_shortestFrom (i : Binary64.Interval) (point : Int) (n fuel : Nat) :
    Digits (Binary64.shortestFrom i point n fuel).digits := by
  induction fuel generalizing n with
  | zero => exact fun c hc => by rw [List.mem_singleton.1 hc]; rfl
  | succ fuel ih =>
    rw [Binary64.shortestFrom]
    split
    · exact digits_significant _
    · exact ih (n + 1)

theorem digits_shortest (x : Binary64) : Digits x.shortest.digits := by
  unfold Binary64.shortest
  split
  · exact fun c hc => by rw [List.mem_singleton.1 hc]; rfl
  · exact digits_shortestFrom _ _ 1 17

theorem Spelled.of_fraction (whole fraction : List Char) (hne : whole ++ fraction ≠ [])
    (hwhole : Digits whole) (hf : FractionText fraction) : Spelled (whole ++ fraction) :=
  ⟨hne, whole, fraction, [], by rw [List.append_nil], hwhole, hf, .inl rfl⟩

/-- A decimal is written as digits, a fraction and an exponent. -/
theorem spelled_text {d : Decimal} (hd : Digits d.digits) : Spelled d.text := by
  have htake (n : Nat) : Digits (d.digits.take n) := fun c hc => hd c (List.mem_of_mem_take hc)
  have hdrop (n : Nat) : Digits (d.digits.drop n) := fun c hc => hd c (List.mem_of_mem_drop hc)
  have hzero : Digits ['0'] := fun c hc => by rw [List.mem_singleton.1 hc]; rfl
  unfold Decimal.text
  simp only
  split
  · refine ⟨by simp, _, if d.digits.length ≤ 1 then [] else '.' :: d.digits.drop 1, _,
      List.append_assoc .., htake 1, ?_, .inr ⟨_, _, rfl, ?_, digits_toDigits _⟩⟩
    · split
      · exact .inl rfl
      · exact .inr ⟨_, rfl, hdrop 1⟩
    · split
      · exact .inr rfl
      · exact .inl rfl
  split
  · exact .of_fraction ['0'] _ (by simp) hzero
      (.inr ⟨_, rfl, (digits_replicate _).append hd⟩)
  split
  · exact .of_fraction _ _ (by simp) (hd.append (digits_replicate _)) (.inr ⟨['0'], rfl, hzero⟩)
  · exact .of_fraction _ _ (by simp) (htake _) (.inr ⟨_, rfl, hdrop _⟩)

theorem spelled_toDigits (n : Nat) : Spelled (Nat.toDigits 10 n) := by
  have h := Spelled.of_fraction (Nat.toDigits 10 n) []
    (by rw [List.append_nil]; exact Nat.toDigits_ne_nil) (digits_toDigits n) (.inl rfl)
  rwa [List.append_nil] at h

/-- A number is written as it is spelled, perhaps after a sign. -/
theorem numberText_cases (n : Number) : (∃ cs, numberText n = '-' :: cs ∧ Spelled cs) ∨
    Spelled (numberText n) := by
  cases n with
  | int n =>
    show (∃ cs, intText n = '-' :: cs ∧ Spelled cs) ∨ Spelled (intText n)
    unfold intText
    split
    · exact .inl ⟨_, rfl, spelled_toDigits _⟩
    · exact .inr (spelled_toDigits _)
  | float x =>
    have hx := spelled_text (digits_shortest x)
    show (∃ cs, x.text = '-' :: cs ∧ Spelled cs) ∨ Spelled x.text
    unfold Binary64.text
    split
    · exact .inl ⟨_, rfl, hx⟩
    · exact .inr hx

/-- What a number without sign begins with. -/
theorem Spelled.head {cs : List Char} (h : Spelled cs) :
    ∃ c r, cs = c :: r ∧ (c.isDigit = true ∨ c = '.' ∨ c = 'e') := by
  obtain ⟨hne, whole, fraction, exponent, rfl, hwhole, hf, he⟩ := h
  cases whole with
  | cons d whole => exact ⟨d, _, rfl, .inl (hwhole d (List.mem_cons_self ..))⟩
  | nil =>
    obtain rfl | ⟨ds, rfl, -⟩ := hf
    · obtain rfl | ⟨sign, ds, rfl, -, -⟩ := he
      · exact absurd rfl hne
      · exact ⟨_, _, rfl, .inr (.inr rfl)⟩
    · exact ⟨_, _, rfl, .inr (.inl rfl)⟩

end Spelling

section Values

variable {layout : Layout} {cs rest r : List Char} {n : Number} {steps depth : Nat} {v : Json}
  {k : String} {xs : List Json} {fs : List (String × Json)}

/-- The text of a number begins with a character that is neither a blank nor a bracket. -/
theorem numberText_head (n : Number) : ∃ c r, numberText n = c :: r ∧ isBlank c = false ∧
    c ≠ ']' ∧ c ≠ '[' ∧ c ≠ '\x7b' := by
  obtain ⟨cs, he, -⟩ | hcs := numberText_cases n
  · exact ⟨_, _, he, rfl, by decide⟩
  · obtain ⟨c, r, he, hd | rfl | rfl⟩ := hcs.head
    · refine ⟨c, r, he, isBlank_of_isDigit hd, ?_, ne_bracket_of_isDigit hd⟩
      rintro rfl
      exact absurd hd (by decide)
    · exact ⟨_, _, he, rfl, by decide⟩
    · exact ⟨_, _, he, rfl, by decide⟩

/-- The text of a value begins with a character that is no blank and closes no array. -/
theorem exists_textAt_append (v : Json) (level : Nat) (tail : List Char) : ∃ c r,
    textAt layout level v ++ tail = c :: r ∧ isBlank c = false ∧ c ≠ ']' := by
  suffices h : ∃ c r, textAt layout level v = c :: r ∧ isBlank c = false ∧ c ≠ ']' by
    obtain ⟨c, r, he, hc⟩ := h
    exact ⟨c, r ++ tail, by rw [he, List.cons_append], hc⟩
  match v with
  | .null | .bool true | .bool false | .string _ | .array [] | .array (_ :: _) | .object []
  | .object (_ :: _) => exact ⟨_, _, rfl, rfl, by decide⟩
  | .number n =>
    obtain ⟨c, r, he, hblank, hclose, -⟩ := numberText_head n
    exact ⟨c, r, he, hblank, hclose⟩

/-- From the text of a number a number is read, to the end of the text. -/
theorem readScalar_numberText (hrest : Delimited rest)
    (h : readScalar (numberText n ++ rest) = .ok (v, r)) : r = rest ∧ ∃ m, v = .number m := by
  obtain ⟨cs, he, hcs⟩ | hcs := numberText_cases n
  · rw [he, List.cons_append, readScalar] at h
    obtain ⟨⟨m, mid⟩, hm, h⟩ := exists_of_bind h
    cases h
    exact ⟨readNumber_extent hcs hrest hm, m, rfl⟩
  · obtain ⟨c, cs, he, hd | rfl | rfl⟩ := hcs.head
    · rw [he] at hcs
      rw [he, List.cons_append, readScalar_digit hd] at h
      cases hm : readNumber false (c :: (cs ++ rest)) with
      | error e => rw [hm] at h; cases h
      | ok p =>
        obtain ⟨m, mid⟩ := p
        rw [hm] at h
        cases h
        exact ⟨readNumber_extent hcs hrest hm, m, rfl⟩
    · rw [he] at h
      cases h
    · rw [he] at h
      cases h

theorem readValue_numberText (hrest : Delimited rest)
    (h : readValue steps depth (numberText n ++ rest) = .ok (v, r)) : r = rest := by
  cases steps with
  | zero => cases h
  | succ steps =>
    obtain ⟨c, cs, he, hblank, -, hc⟩ := numberText_head n
    rw [he, List.cons_append, readValue_scalar hblank hc, ← List.cons_append, ← he] at h
    exact (readScalar_numberText hrest (of_mapError h)).1

/-- Where a first item is expected, it is read, and then the others. -/
theorem readItems_first_cases (hcs : ∃ c r, cs = c :: r ∧ isBlank c = false ∧ c ≠ ']')
    (level : Nat)
    (h : readItems steps depth true (Layout.newline layout level ++ cs) = .ok (xs, r)) :
    ∃ n x mid ys, readValue n depth cs = .ok (x, mid) ∧
      readItems n depth false mid = .ok (ys, r) ∧ xs = x :: ys := by
  obtain ⟨c, r, rfl, hblank, hclose⟩ := hcs
  cases steps with
  | zero => cases h
  | succ steps =>
    rw [readItems, skipBlanks_newline, skipBlanks_of_ne hblank] at h
    split at h <;> rename_i heq <;> cases heq
    · exact absurd rfl hclose
    · rw [if_pos rfl] at h
      obtain ⟨⟨x, mid⟩, hx, h⟩ := exists_of_bind h
      obtain ⟨⟨ys, r⟩, hys, h⟩ := exists_of_bind h
      cases h
      exact ⟨steps, x, mid, ys, hx, hys, rfl⟩

/-- After a comma an item is read, and then the others. -/
theorem readItems_next_cases (hcs : ∃ c r, cs = c :: r ∧ isBlank c = false ∧ c ≠ ']')
    (level : Nat)
    (h : readItems steps depth false (',' :: (Layout.newline layout level ++ cs)) = .ok (xs, r)) :
    ∃ n x mid ys, readValue n depth cs = .ok (x, mid) ∧
      readItems n depth false mid = .ok (ys, r) ∧ xs = x :: ys := by
  obtain ⟨c, r, rfl, hblank, hclose⟩ := hcs
  cases steps with
  | zero => cases h
  | succ steps =>
    rw [readItems, skipBlanks_of_ne rfl] at h
    split at h <;> rename_i heq <;> cases heq
    rw [if_neg Bool.false_ne_true, if_pos rfl, skipBlanks_newline, skipBlanks_of_ne hblank] at h
    split at h <;> rename_i heq
    · cases h
    · obtain ⟨⟨x, mid⟩, hx, h⟩ := exists_of_bind h
      obtain ⟨⟨ys, r⟩, hys, h⟩ := exists_of_bind h
      cases h
      exact ⟨steps, x, mid, ys, hx, hys, rfl⟩

/-- After a key and a colon the value is read, and then the other fields. -/
theorem readField_quote_cases
    (h : readField steps depth (quote k ++ (Layout.colon layout ++ cs)) = .ok (fs, r)) :
    ∃ n x mid gs, readValue n depth cs = .ok (x, mid) ∧
      readFields n depth false mid = .ok (gs, r) := by
  cases steps with
  | zero => cases h
  | succ steps =>
    obtain ⟨ds, hds, hread⟩ : ∃ ds, Layout.colon layout ++ cs = ':' :: ds ∧
        readValue steps depth ds = readValue steps depth cs := by
      cases layout with
      | compact => exact ⟨_, rfl, rfl⟩
      | indented => exact ⟨' ' :: cs, rfl, readValue_congr (skipBlanks_of_blank rfl) steps depth⟩
    rw [hds, quote, List.cons_append, List.append_assoc, readField] at h
    simp only [List.singleton_append, readString_quoted, Except.mapError, bind, Except.bind,
      skipBlanks_of_ne (show isBlank ':' = false from rfl), hread] at h
    obtain ⟨⟨x, mid⟩, hx, h⟩ := exists_of_bind h
    obtain ⟨⟨gs, r⟩, hgs, h⟩ := exists_of_bind h
    cases h
    exact ⟨steps, x, mid, gs, hx, hgs⟩

/-- Where a first field is expected, a field is read. -/
theorem readFields_first_cases (level : Nat)
    (h : readFields steps depth true (Layout.newline layout level ++ (quote k ++ cs))
      = .ok (fs, r)) : ∃ n, readField n depth (quote k ++ cs) = .ok (fs, r) := by
  cases steps with
  | zero => cases h
  | succ steps =>
    rw [readFields, skipBlanks_newline, quote, List.cons_append, skipBlanks_of_ne rfl] at h
    exact ⟨steps, h⟩

/-- After a comma a field is read. -/
theorem readFields_next_cases (level : Nat)
    (h : readFields steps depth false (',' :: (Layout.newline layout level ++ (quote k ++ cs)))
      = .ok (fs, r)) : ∃ n, readField n depth (quote k ++ cs) = .ok (fs, r) := by
  cases steps with
  | zero => cases h
  | succ steps =>
    change readField steps depth (skipBlanks (Layout.newline layout level ++ (quote k ++ cs)))
      = _ at h
    rw [skipBlanks_newline, quote, List.cons_append, skipBlanks_of_ne rfl] at h
    exact ⟨steps, h⟩

/-- Where an array with items was written, its first item is read, and then the others. -/
theorem readValue_array_cases {x : Json} (level : Nat)
    (h : readValue (steps + 1) (depth + 1) (textAt layout level (.array (x :: xs)) ++ rest)
      = .ok (v, r)) :
    ∃ n y mid ys, readValue n depth (textAt layout (level + 1) x ++
        (itemsText layout (level + 1) xs ++ (Layout.newline layout level ++ ']' :: rest)))
          = .ok (y, mid) ∧
      readItems n depth false mid = .ok (ys, r) ∧ v = .array (y :: ys) := by
  simp only [textAt, List.cons_append, List.append_assoc, List.nil_append] at h
  rw [readValue, skipBlanks_of_ne rfl] at h
  obtain ⟨⟨zs, mid⟩, hzs, h⟩ := exists_of_bind h
  cases h
  obtain ⟨n, y, mid, ys, hy, hys, rfl⟩ :=
    readItems_first_cases (exists_textAt_append x (level + 1) _) (level + 1) hzs
  exact ⟨n, y, mid, ys, hy, hys, rfl⟩

theorem depthItems_le : depthItems xs ≤ depth ↔ ∀ x ∈ xs, x.depth ≤ depth := by
  induction xs with
  | nil => simp [depthItems]
  | cons x xs ih => rw [depthItems, Nat.max_le, ih, List.forall_mem_cons]

theorem depthFields_le : depthFields fs ≤ depth ↔ ∀ f ∈ fs, f.2.depth ≤ depth := by
  induction fs with
  | nil => simp [depthFields]
  | cons f fs ih =>
    obtain ⟨k, v⟩ := f
    rw [depthFields, Nat.max_le, ih, List.forall_mem_cons]

/-- Where `rawKey` is the first key of an object, it is the only one. -/
def Lone (v : Json) : Prop :=
  v.allObjects (fun fields => !beginsRaw fields || onlyRaw fields) = true

theorem lone_array : (array xs).Lone ↔ ∀ x ∈ xs, x.Lone := allObjectsItems_iff

theorem lone_object : (object fs).Lone ↔
    (beginsRaw fs = true → onlyRaw fs = true) ∧ ∀ f ∈ fs, f.2.Lone := by
  rw [Lone, allObjects, Bool.and_eq_true, allObjectsFields_iff, Bool.or_eq_true, Bool.not_eq_true']
  cases beginsRaw fs <;> simp [Lone]

/-- What a text that is read with a bound tells of the value that it was written for. -/
structure Extent (depth : Nat) (v : Json) : Prop where
  lone : v.Lone
  depth_le : v.Plain → v.depth ≤ depth

theorem extent_array (h : ∀ x ∈ xs, x.Extent depth) : (array xs).Extent (depth + 1) := by
  refine ⟨lone_array.2 fun x hx => (h x hx).lone, fun hp => Nat.succ_le_succ ?_⟩
  exact depthItems_le.2 fun x hx => (h x hx).depth_le (plainItems_iff.1 (plain_array.1 hp) x hx)

theorem extent_object (hfirst : beginsRaw fs = false) (h : ∀ f ∈ fs, f.2.Extent depth) :
    (object fs).Extent (depth + 1) := by
  refine ⟨lone_object.2 ⟨fun hraw => absurd (hfirst.symm.trans hraw) Bool.false_ne_true,
    fun f hf => (h f hf).lone⟩, fun hp => Nat.succ_le_succ ?_⟩
  exact depthFields_le.2 fun f hf => (h f hf).depth_le (plainFields_iff.1 (plain_object.1 hp).2 f hf)

/-- What stands under `rawKey` is a string, and no field follows it. -/
theorem extent_raw (s : String) : (object [(rawKey, .string s)]).Extent depth :=
  ⟨lone_object.2 ⟨fun _ => by simp [onlyRaw], by simp [Lone, allObjects]⟩,
    fun hp => absurd (plain_object.1 hp).1 (by simp [beginsRaw])⟩

theorem readRawText_cases {s : List Char} (h : readRawText cs = .ok (s, r)) :
    ∃ ds t, skipBlanks cs = ':' :: ds ∧ readScalar (skipBlanks ds) = .ok (.string t, r) := by
  unfold readRawText at h
  split at h
  · rename_i ds hds
    split at h
    · cases h
    · cases h
    · split at h
      · rename_i hread
        cases h
        exact ⟨ds, _, hds, hread⟩
      · cases h
      · cases h
  · cases h

/-- A text from which a string is read was written for a string. -/
theorem readScalar_eq_string {x : Json} {level : Nat} {t : String} (hrest : Delimited rest)
    (h : readScalar (textAt layout level x ++ rest) = .ok (.string t, r)) :
    x = .string t ∧ r = rest := by
  match x with
  | .null | .bool true | .bool false | .array [] | .array (_ :: _) | .object []
  | .object (_ :: _) => cases h
  | .number n =>
    obtain ⟨-, m, hm⟩ := readScalar_numberText hrest h
    cases hm
  | .string s =>
    rw [textAt, readScalar_quote] at h
    cases h
    exact ⟨rfl, rfl⟩

/-- What is read after `rawKey` was written for a string, and the object ends there. -/
theorem readRaw_written {x : Json} {level close : Nat}
    (h : readRaw steps (Layout.colon layout ++ (textAt layout level x ++
      (fieldsText layout level fs ++ (Layout.newline layout close ++ '\x7d' :: rest))))
        = .ok (v, r)) : (∃ s, x = .string s) ∧ fs = [] ∧ r = rest := by
  match steps, h with
  | 0, h => cases h
  | steps + 1, h =>
    have htail : Delimited (fieldsText layout level fs ++
        (Layout.newline layout close ++ '\x7d' :: rest)) :=
      delimited_fields _ (delimited_newline _ (delimited_bracket (.inr rfl))) fs
    obtain ⟨s, rest', tail, htext, -, hclose⟩ := readRaw_cases h
    obtain ⟨ds, t, hds, hread⟩ := readRawText_cases htext
    obtain ⟨c, cs, hcs, hblank, -⟩ : ∃ c r, textAt layout level x ++ (fieldsText layout level fs ++
        (Layout.newline layout close ++ '\x7d' :: rest)) = c :: r ∧ isBlank c = false ∧ c ≠ ']' :=
      exists_textAt_append x level _
    have hskip : skipBlanks ds = c :: cs := by
      rw [hcs] at hds
      cases layout with
      | compact =>
        cases (skipBlanks_of_ne rfl).symm.trans hds
        exact skipBlanks_of_ne hblank
      | indented =>
        cases (skipBlanks_of_ne rfl).symm.trans hds
        exact (skipBlanks_of_blank rfl).trans (skipBlanks_of_ne hblank)
    rw [hskip, ← hcs] at hread
    obtain ⟨rfl, rfl⟩ := readScalar_eq_string htail hread
    cases fs with
    | nil =>
      rw [fieldsText, List.nil_append, skipBlanks_newline, skipBlanks_of_ne rfl] at hclose
      exact ⟨⟨t, rfl⟩, rfl, (List.cons.inj hclose).2.symm⟩
    | cons f fs =>
      obtain ⟨k, y⟩ := f
      rw [fieldsText, List.cons_append, skipBlanks_of_ne rfl] at hclose
      cases hclose

mutual

/-- **The reader stops where the text of a value ends**, if it does not refuse the text. -/
theorem readValue_extent : ∀ (v : Json) (level steps depth : Nat) (rest : List Char) (w : Json)
    (r : List Char), Delimited rest →
      readValue steps depth (textAt layout level v ++ rest) = .ok (w, r) →
      r = rest ∧ v.Extent depth
  | _, _, 0, _, _, _, _, _, h => nomatch h
  | .null, _, _ + 1, _, _, _, _, _, h | .bool true, _, _ + 1, _, _, _, _, _, h
  | .bool false, _, _ + 1, _, _, _, _, _, h => by
    cases h
    exact ⟨rfl, rfl, fun _ => Nat.zero_le _⟩
  | .string s, level, steps + 1, depth, rest, w, r, _, h => by
    change readValue (steps + 1) depth ('"' :: (s.toList.flatMap escape ++ ['"'] ++ rest)) = _ at h
    rw [readValue_scalar rfl (by decide)] at h
    cases (readScalar_quote s).symm.trans (of_mapError h)
    exact ⟨rfl, rfl, fun _ => Nat.zero_le _⟩
  | .number n, _, _ + 1, _, _, _, _, hrest, h =>
    ⟨readValue_numberText hrest h, rfl, fun _ => Nat.zero_le _⟩
  | .array [], _, _ + 1, 0, _, _, _, _, h | .array (_ :: _), _, _ + 1, 0, _, _, _, _, h
  | .object [], _, _ + 1, 0, _, _, _, _, h | .object (_ :: _), _, _ + 1, 0, _, _, _, _, h
  | .array [], _, 1, _ + 1, _, _, _, _, h | .object [], _, 1, _ + 1, _, _, _, _, h => nomatch h
  | .array [], _, _ + 2, _ + 1, _, _, _, _, h => by
    cases h
    exact ⟨rfl, extent_array nofun⟩
  | .object [], _, _ + 2, _ + 1, _, _, _, _, h => by
    cases h
    exact ⟨rfl, extent_object rfl nofun⟩
  | .array (x :: xs), level, steps + 1, depth + 1, rest, w, r, _, h => by
    obtain ⟨n, y, mid, zs, hy, hzs, -⟩ := readValue_array_cases level h
    obtain ⟨rfl, hx⟩ := readValue_extent x (level + 1) n depth _ y mid (delimited_items _
      (delimited_newline _ (delimited_bracket (.inl rfl))) xs) hy
    obtain ⟨-, rfl, hxs⟩ := readItems_extent xs (level + 1) level n depth rest zs r hzs
    exact ⟨rfl, extent_array (List.forall_mem_cons.2 ⟨hx, hxs⟩)⟩
  | .object ((k, x) :: fs), level, steps + 1, depth + 1, rest, w, r, _, h => by
    simp only [textAt, List.cons_append, List.append_assoc, List.nil_append] at h
    rw [readValue, skipBlanks_of_ne rfl] at h
    simp only [afterRawKey?_quote] at h
    by_cases hk : k = rawKey
    · subst hk
      rw [if_pos rfl] at h
      obtain ⟨⟨s, rfl⟩, rfl, rfl⟩ := readRaw_written h
      exact ⟨rfl, extent_raw s⟩
    · rw [if_neg hk] at h
      obtain ⟨⟨gs, mid⟩, hgs, h⟩ := exists_of_bind h
      cases h
      obtain ⟨n, hfield⟩ := readFields_first_cases (level + 1) hgs
      obtain ⟨n, y, mid, gs, hy, hgs⟩ := readField_quote_cases hfield
      obtain ⟨rfl, hx⟩ := readValue_extent x (level + 1) n depth _ y mid (delimited_fields _
        (delimited_newline _ (delimited_bracket (.inr rfl))) fs) hy
      obtain ⟨rfl, hfs⟩ := readFields_extent fs (level + 1) level n depth rest gs _ hgs
      exact ⟨rfl, extent_object (decide_eq_false hk) (List.forall_mem_cons.2 ⟨hx, hfs⟩)⟩

/-- As many items are read as were written, up to the closing bracket. -/
theorem readItems_extent : ∀ (xs : List Json) (level close steps depth : Nat)
    (rest : List Char) (ys : List Json) (r : List Char),
      readItems steps depth false
        (itemsText layout level xs ++ (Layout.newline layout close ++ ']' :: rest)) = .ok (ys, r) →
      ys.length = xs.length ∧ r = rest ∧ ∀ x ∈ xs, x.Extent depth
  | _, _, _, 0, _, _, _, _, h => nomatch h
  | [], _, _, _ + 1, _, _, _, _, h => by
    rw [itemsText, List.nil_append, readItems, skipBlanks_newline, skipBlanks_of_ne rfl] at h
    cases h
    exact ⟨rfl, rfl, nofun⟩
  | x :: xs, level, close, steps + 1, depth, rest, ys, r, h => by
    simp only [itemsText, List.cons_append, List.append_assoc] at h
    obtain ⟨n, y, mid, zs, hy, hzs, rfl⟩ :=
      readItems_next_cases (exists_textAt_append x level _) level h
    obtain ⟨rfl, hx⟩ := readValue_extent x level n depth _ y mid (delimited_items _
      (delimited_newline _ (delimited_bracket (.inl rfl))) xs) hy
    obtain ⟨hlength, hr, hxs⟩ := readItems_extent xs level close n depth rest zs r hzs
    exact ⟨congrArg (· + 1) hlength, hr, List.forall_mem_cons.2 ⟨hx, hxs⟩⟩

theorem readFields_extent : ∀ (fs : List (String × Json)) (level close steps depth : Nat)
    (rest : List Char) (gs : List (String × Json)) (r : List Char),
      readFields steps depth false
        (fieldsText layout level fs ++ (Layout.newline layout close ++ '\x7d' :: rest))
          = .ok (gs, r) → r = rest ∧ ∀ f ∈ fs, f.2.Extent depth
  | _, _, _, 0, _, _, _, _, h => nomatch h
  | [], _, _, _ + 1, _, _, _, _, h => by
    rw [fieldsText, List.nil_append, readFields, skipBlanks_newline, skipBlanks_of_ne rfl] at h
    cases h
    exact ⟨rfl, nofun⟩
  | (k, x) :: fs, level, close, steps + 1, depth, rest, gs, r, h => by
    simp only [fieldsText, List.cons_append, List.append_assoc] at h
    obtain ⟨n, hfield⟩ := readFields_next_cases level h
    obtain ⟨n, y, mid, gs, hy, hgs⟩ := readField_quote_cases hfield
    obtain ⟨rfl, hx⟩ := readValue_extent x level n depth _ y mid (delimited_fields _
      (delimited_newline _ (delimited_bracket (.inr rfl))) fs) hy
    obtain ⟨rfl, hfs⟩ := readFields_extent fs level close n depth rest gs r hgs
    exact ⟨rfl, List.forall_mem_cons.2 ⟨hx, hfs⟩⟩

end

/-- The text of an array, if it is read at all, is read as an array of as many items. -/
theorem read_array_length {w : Json} (h : read ((array xs).text layout) = .ok w) :
    ∃ ys, w = .array ys ∧ ys.length = xs.length := by
  obtain ⟨rest, hread⟩ := readValue_of_read h
  cases xs with
  | nil =>
    cases hread
    exact ⟨[], rfl, rfl⟩
  | cons x xs =>
    rw [← List.append_nil (text layout (array (x :: xs)))] at hread
    obtain ⟨n, y, mid, ys, hy, hys, rfl⟩ := readValue_array_cases 0 hread
    obtain ⟨rfl, -⟩ := readValue_extent x 1 n _ _ y mid (delimited_items _
      (delimited_newline _ (delimited_bracket (.inl rfl))) xs) hy
    obtain ⟨hlength, -⟩ := readItems_extent xs 1 0 n _ [] ys rest hys
    exact ⟨y :: ys, rfl, congrArg (· + 1) hlength⟩

/-- What a whole text that is read tells of the value that it was written for. -/
theorem read_extent {w : Json} (h : read (v.text layout) = .ok w) : v.Extent maxDepth := by
  obtain ⟨rest, hread⟩ := readValue_of_read h
  rw [← List.append_nil (text layout v)] at hread
  exact (readValue_extent v 0 _ maxDepth [] w rest (by simp [Delimited]) hread).2

/-- Where `rawKey` is never the only key, and never the first of several, a value is plain. -/
theorem Lone.plain (h : v.Lone) (hs : v.Settled) : v.Plain :=
  allObjects_imp (fun fs hlone hsettled => by
    cases hraw : beginsRaw fs <;> simp_all) h hs

/-- **A canonical value is read back from its text if and only if it is plain and not too deep.** -/
theorem read_text_iff (layout : Layout) (h : v.Canonical) :
    read (v.text layout) = .ok v ↔ v.Plain ∧ v.depth ≤ maxDepth := by
  refine ⟨fun hread => ?_, fun hv => read_text layout h hv.1 hv.2⟩
  have hextent := read_extent hread
  have hplain := hextent.lone.plain (read_sound hread).settled
  exact ⟨hplain, hextent.depth_le hplain⟩

/-- **The text of a plain canonical value that is too deep is malformed.** -/
theorem read_text_deep (layout : Layout) (h : v.Canonical) (hp : v.Plain)
    (hd : maxDepth < v.depth) : read (v.text layout) = .error (.text .malformed) := by
  have hvalue : readValue (2 * (v.text layout).length + 2) v.depth (v.text layout ++ [])
      = .ok (v, []) :=
    readValue_textAt v 0 _ v.depth [] h hp (Nat.le_refl _) (Nat.le_add_right ..)
      (by simp [Delimited])
  rw [List.append_nil] at hvalue
  rcases readValue_unlessRefused (2 * (v.text layout).length + 2) hd.le (v.text layout) with
    hsame | hrefused
  · have hread : read (v.text layout) = .ok v := by
      rw [read, hsame, hvalue]
      rfl
    exact absurd ((read_extent hread).depth_le hp) (Nat.not_le.2 hd)
  · rw [read, hrefused]
    rfl

end Values
end Json
end EventSourcing
