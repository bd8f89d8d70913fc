import EventSourcing.Proofs.JsonText

/-!
# What is read

Whatever text it comes from, the keys of a value that was read ascend, its integers are those that
are kept exactly, and `Json.rawKey` is nowhere the only key (`Json.readValue_sound`). Such a value
is settled to itself if it is plain and to nothing otherwise (`Json.settle_of_settled`), so data
that was read back is plain, whoever wrote the text. The bound on depth refuses texts and changes
nothing else: with a lower one the answer is the same, or the text is refused as malformed
(`Json.readValue_unlessRefused`).

Each function of the reader is opened once, by the lemma that says what it has read
(`Json.readValue_cases` and so on).
-/

namespace EventSourcing

/-- A computation in two parts that succeeds has a result of the first. -/
theorem exists_of_bind {ε α β : Type} {x : Except ε α} {f : α → Except ε β} {b : β}
    (h : x >>= f = .ok b) : ∃ a, x = .ok a ∧ f a = .ok b := by
  cases x with
  | error e => cases h
  | ok a => exact ⟨a, rfl, h⟩

theorem of_mapError {ε δ α : Type} {x : Except ε α} {f : ε → δ} {a : α}
    (h : x.mapError f = .ok a) : x = .ok a := by
  cases x with
  | error e => cases h
  | ok b => exact congrArg _ (Except.ok.inj h)

namespace Json

mutual

/-- Every number is an integer. -/
def Whole : Json → Prop
  | .number (.float _) => False
  | .array items => WholeItems items
  | .object fields => WholeFields fields
  | _ => True

/-- Every item has only integers. -/
def WholeItems : List Json → Prop
  | [] => True
  | x :: xs => Whole x ∧ WholeItems xs

/-- Every field value has only integers. -/
def WholeFields : List (String × Json) → Prop
  | [] => True
  | (_, x) :: fs => Whole x ∧ WholeFields fs

end

mutual

/-- Every integer is kept exactly, and the keys of every object ascend. -/
def Regular : Json → Prop
  | .number (.int n) => exactInt n = true
  | .array items => RegularItems items
  | .object fields => Fields.Sorted fields ∧ RegularFields fields
  | _ => True

/-- Every item is regular. -/
def RegularItems : List Json → Prop
  | [] => True
  | x :: xs => Regular x ∧ RegularItems xs

/-- Every field value is regular. -/
def RegularFields : List (String × Json) → Prop
  | [] => True
  | (_, x) :: fs => Regular x ∧ RegularFields fs

end

mutual

/-- A regular value that has only integers is canonical. -/
theorem Regular.canonical : ∀ {v : Json}, v.Regular → v.Whole → v.Canonical
  | .null, _, _ | .bool _, _, _ | .string _, _, _ => trivial
  | .number (.int _), h, _ => h
  | .number (.float _), _, hw => hw.elim
  | .array _, h, hw => RegularItems.canonical h hw
  | .object _, h, hw => ⟨h.1, RegularFields.canonical h.2 hw⟩

theorem RegularItems.canonical :
    ∀ {xs : List Json}, RegularItems xs → WholeItems xs → CanonicalItems xs
  | [], _, _ => trivial
  | _ :: _, h, hw => ⟨Regular.canonical h.1 hw.1, RegularItems.canonical h.2 hw.2⟩

theorem RegularFields.canonical :
    ∀ {fs : List (String × Json)}, RegularFields fs → WholeFields fs → CanonicalFields fs
  | [], _, _ => trivial
  | (_, _) :: _, h, hw => ⟨Regular.canonical h.1 hw.1, RegularFields.canonical h.2 hw.2⟩

end

/-- Whether `rawKey` is the only key. -/
def onlyRaw : Fields → Bool
  | [(key, _)] => key = rawKey
  | _ => false

/-- No object inside a value has `rawKey` as its only key. -/
def Settled (v : Json) : Prop := v.allObjects (fun fields => !onlyRaw fields) = true

section Objects

variable {p : Fields → Bool} {xs : List Json} {fs : Fields}

theorem allObjectsItems_iff : allObjectsItems p xs = true ↔ ∀ x ∈ xs, x.allObjects p = true := by
  induction xs with
  | nil => simp [allObjectsItems]
  | cons x xs ih => rw [allObjectsItems, Bool.and_eq_true, ih, List.forall_mem_cons]

theorem allObjectsFields_iff :
    allObjectsFields p fs = true ↔ ∀ f ∈ fs, f.2.allObjects p = true := by
  induction fs with
  | nil => simp [allObjectsFields]
  | cons f fs ih =>
    obtain ⟨k, v⟩ := f
    rw [allObjectsFields, Bool.and_eq_true, ih, List.forall_mem_cons]

mutual

/-- A test that two tests imply is passed where both are. -/
theorem allObjects_imp {p q r : Fields → Bool}
    (h : ∀ fs, p fs = true → q fs = true → r fs = true) :
    ∀ {v : Json}, v.allObjects p = true → v.allObjects q = true → v.allObjects r = true
  | .null, _, _ | .bool _, _, _ | .number _, _, _ | .string _, _, _ => rfl
  | .array _, hp, hq => allObjectsItems_imp h hp hq
  | .object fs, hp, hq => by
    obtain ⟨hp, hps⟩ := Bool.and_eq_true_iff.1 hp
    obtain ⟨hq, hqs⟩ := Bool.and_eq_true_iff.1 hq
    exact Bool.and_eq_true_iff.2 ⟨h fs hp hq, allObjectsFields_imp h hps hqs⟩

theorem allObjectsItems_imp {p q r : Fields → Bool}
    (h : ∀ fs, p fs = true → q fs = true → r fs = true) : ∀ {xs : List Json},
    allObjectsItems p xs = true → allObjectsItems q xs = true → allObjectsItems r xs = true
  | [], _, _ => rfl
  | _ :: _, hp, hq => by
    obtain ⟨hp, hps⟩ := Bool.and_eq_true_iff.1 hp
    obtain ⟨hq, hqs⟩ := Bool.and_eq_true_iff.1 hq
    exact Bool.and_eq_true_iff.2 ⟨allObjects_imp h hp hq, allObjectsItems_imp h hps hqs⟩

theorem allObjectsFields_imp {p q r : Fields → Bool}
    (h : ∀ fs, p fs = true → q fs = true → r fs = true) : ∀ {fs : List (String × Json)},
    allObjectsFields p fs = true → allObjectsFields q fs = true → allObjectsFields r fs = true
  | [], _, _ => rfl
  | (_, _) :: _, hp, hq => by
    obtain ⟨hp, hps⟩ := Bool.and_eq_true_iff.1 hp
    obtain ⟨hq, hqs⟩ := Bool.and_eq_true_iff.1 hq
    exact Bool.and_eq_true_iff.2 ⟨allObjects_imp h hp hq, allObjectsFields_imp h hps hqs⟩

end

/-- Where no object begins with `rawKey`, it is nowhere the only key. -/
theorem settled_of_plain {v : Json} (h : v.Plain) : v.Settled := by
  refine allObjects_imp (fun fields hplain _ => ?_) h h
  match fields, hplain with
  | [], _ | _ :: _ :: _, _ => rfl
  | [(_, _)], hplain => exact hplain

theorem plainItems_iff : PlainItems xs ↔ ∀ x ∈ xs, x.Plain := allObjectsItems_iff

theorem plainFields_iff : PlainFields fs ↔ ∀ f ∈ fs, f.2.Plain := allObjectsFields_iff

theorem settled_array : (array xs).Settled ↔ ∀ x ∈ xs, x.Settled := allObjectsItems_iff

theorem settled_object : (object fs).Settled ↔ onlyRaw fs = false ∧ ∀ f ∈ fs, f.2.Settled := by
  rw [Settled, allObjects, Bool.and_eq_true, allObjectsFields_iff, Bool.not_eq_true']
  rfl

end Objects

mutual

/-- **What is settled is plain.**  A value in which `rawKey` is nowhere the only key is settled to
itself or not at all. -/
theorem settle_of_settled : ∀ {v w : Json}, v.Settled → settle v = some w → w = v ∧ v.Plain
  | .null, _, _, h | .bool _, _, _, h | .number _, _, _, h | .string _, _, _, h =>
    ⟨(Option.some.inj h).symm, rfl⟩
  | .array xs, w, hv, h => by
    obtain ⟨ys, hys, rfl⟩ := Option.map_eq_some_iff.1 h
    obtain ⟨rfl, hplain⟩ := settleItems_of_settled (settled_array.1 hv) hys
    exact ⟨rfl, hplain⟩
  | .object fs, w, hv, h => by
    obtain ⟨honly, hfs⟩ := settled_object.1 hv
    rw [settle] at h
    split at h
    · rename_i hfirst
      unfold rawValue? at h
      split at h
      · exact absurd (honly.symm.trans hfirst) Bool.false_ne_true
      · cases h
    · rename_i hfirst
      obtain ⟨gs, hgs, rfl⟩ := Option.map_eq_some_iff.1 h
      obtain ⟨rfl, hplain⟩ := settleFields_of_settled hfs hgs
      exact ⟨rfl, plain_object.2 ⟨eq_false_of_ne_true hfirst, hplain⟩⟩

theorem settleItems_of_settled : ∀ {xs ys : List Json}, (∀ x ∈ xs, x.Settled) →
    settleItems xs = some ys → ys = xs ∧ PlainItems xs
  | [], _, _, h => ⟨(Option.some.inj h).symm, rfl⟩
  | x :: xs, ys, hall, h => by
    obtain ⟨hx, hxs⟩ := List.forall_mem_cons.1 hall
    obtain ⟨y, hy, hrest⟩ := Option.bind_eq_some_iff.1 h
    obtain ⟨zs, hzs, hys⟩ := Option.bind_eq_some_iff.1 hrest
    obtain ⟨rfl, hplain⟩ := settle_of_settled hx hy
    obtain ⟨rfl, hplains⟩ := settleItems_of_settled hxs hzs
    exact ⟨(Option.some.inj hys).symm, plainItems_cons.2 ⟨hplain, hplains⟩⟩

theorem settleFields_of_settled : ∀ {fs gs : List (String × Json)}, (∀ f ∈ fs, f.2.Settled) →
    settleFields fs = some gs → gs = fs ∧ PlainFields fs
  | [], _, _, h => ⟨(Option.some.inj h).symm, rfl⟩
  | (key, x) :: fs, gs, hall, h => by
    obtain ⟨hx, hfs⟩ := List.forall_mem_cons.1 hall
    obtain ⟨y, hy, hrest⟩ := Option.bind_eq_some_iff.1 h
    obtain ⟨hs, hhs, hgs⟩ := Option.bind_eq_some_iff.1 hrest
    obtain ⟨rfl, hplain⟩ := settle_of_settled hx hy
    obtain ⟨rfl, hplains⟩ := settleFields_of_settled hfs hhs
    exact ⟨(Option.some.inj hgs).symm, plainFields_cons.2 ⟨hplain, hplains⟩⟩

end

section Numbers

variable {negative : Bool} {s k : Nat} {e : Int} {cs rest : List Char} {n : Int}

theorem integerOf_exact (hs : s < 18446744073709551616) (h : integerOf negative s = some (.int n)) :
    exactInt n = true := by
  unfold integerOf at h
  split at h
  · split at h
    · cases h
      simp only [exactInt, Bool.and_eq_true, decide_eq_true_eq]
      omega
    · simp at h
  · cases h
    simp only [exactInt, Bool.and_eq_true, decide_eq_true_eq]
    omega

theorem floatOf_ne_int : floatOf negative s e rest ≠ .ok (.int n, cs) := by
  unfold floatOf
  split <;> simp

theorem readExponent_ne_int : readExponent negative s e cs ≠ .ok (.int n, rest) := by
  unfold readExponent
  split
  simp only
  split
  · simp
  · exact floatOf_ne_int

theorem readScale_ne_int : readScale negative s e cs ≠ .ok (.int n, rest) := by
  unfold readScale
  split
  · exact readExponent_ne_int
  · exact readExponent_ne_int
  · exact floatOf_ne_int

theorem readFraction_ne_int : readFraction negative s e cs ≠ .ok (.int n, rest) := by
  unfold readFraction
  split
  simp only
  split
  · simp
  · exact readScale_ne_int

theorem readAfterWhole_exact (hs : s < 18446744073709551616)
    (h : readAfterWhole negative s cs = .ok (.int n, rest)) : exactInt n = true := by
  unfold readAfterWhole at h
  split at h
  · exact absurd h readFraction_ne_int
  · exact absurd h readExponent_ne_int
  · exact absurd h readExponent_ne_int
  · split at h
    · rename_i hn
      cases h
      exact integerOf_exact hs hn
    · cases h

/-- The significand stays below `2 ^ 64`. -/
theorem takeDigits_lt (hs : s < 18446744073709551616) (cs : List Char) :
    (takeDigits s k cs).1 < 18446744073709551616 := by
  induction cs generalizing s k with
  | nil => exact hs
  | cons c cs ih =>
    rw [takeDigits]
    split
    · rename_i hc
      exact ih hc.2
    · exact hs

/-- An integer that was read is one that is kept exactly. -/
theorem readNumber_exact (h : readNumber negative cs = .ok (.int n, rest)) :
    exactInt n = true := by
  unfold readNumber at h
  split at h
  · cases h
  · split at h
    · exact readAfterWhole_exact (by decide) h
    · cases h
  · rename_i c r _
    split at h
    · have hlt := takeDigits_lt (s := 0) (k := 0) (by decide) (c :: r)
      simp only at h
      split at h
      · exact readAfterWhole_exact hlt h
      · split at h
        · exact absurd h readFraction_ne_int
        · exact absurd h readScale_ne_int
    · cases h

end Numbers

section Fields

variable {fs gs : Fields} {k l : String} {v : Json}

theorem regularFields_iff : RegularFields fs ↔ ∀ f ∈ fs, f.2.Regular := by
  induction fs with
  | nil => simp [RegularFields]
  | cons f fs ih =>
    obtain ⟨k, v⟩ := f
    rw [RegularFields, ih, List.forall_mem_cons]

/-- A field that is set is the new one or an old one. -/
theorem mem_insert {f : String × Json} (h : f ∈ Fields.insert k v fs) : f = (k, v) ∨ f ∈ fs := by
  induction fs with
  | nil => exact .inl (List.mem_singleton.1 h)
  | cons g fs ih =>
    obtain ⟨l, w⟩ := g
    rw [Fields.insert] at h
    split at h
    · exact List.mem_cons.1 h
    split at h
    · exact (List.mem_cons.1 h).imp_right (List.mem_cons_of_mem _)
    · rcases List.mem_cons.1 h with h | h
      · exact .inr (List.mem_cons.2 (.inl h))
      · exact (ih h).imp_right (List.mem_cons_of_mem _)

theorem sorted_insert (h : fs.Sorted) : Fields.Sorted (Fields.insert k v fs) := by
  induction fs with
  | nil => exact List.pairwise_singleton _ _
  | cons g fs ih =>
    obtain ⟨l, w⟩ := g
    obtain ⟨hg, hfs⟩ := List.pairwise_cons.1 h
    rw [Fields.insert]
    split
    · rename_i hlt
      refine List.pairwise_cons.2 ⟨fun f hf => ?_, h⟩
      rcases List.mem_cons.1 hf with rfl | hf
      · exact hlt
      · exact String.lt_trans hlt (hg f hf)
    split
    · rename_i he
      exact List.pairwise_cons.2 ⟨fun f hf => he ▸ hg f hf, hfs⟩
    · rename_i hlt he
      refine List.pairwise_cons.2 ⟨fun f hf => ?_, ih hfs⟩
      rcases mem_insert hf with rfl | hf
      · exact Std.lt_of_le_of_ne (String.not_lt.1 hlt) (Ne.symm he)
      · exact hg f hf

/-- Fields that are merged are old ones or new ones. -/
theorem mem_merge {f : String × Json} (h : f ∈ Fields.merge fs gs) : f ∈ fs ∨ f ∈ gs := by
  induction gs generalizing fs with
  | nil => exact .inl h
  | cons g gs ih =>
    have hmem : f ∈ Fields.insert g.1 g.2 fs ∨ f ∈ gs := ih h
    rcases hmem with h | h
    · rcases mem_insert h with rfl | h
      · exact .inr (List.mem_cons_self ..)
      · exact .inl h
    · exact .inr (List.mem_cons_of_mem _ h)

theorem sorted_merge (h : fs.Sorted) (gs : Fields) : Fields.Sorted (Fields.merge fs gs) := by
  induction gs generalizing fs with
  | nil => exact h
  | cons g gs ih => exact ih (sorted_insert h)

/-- The keys of an object that was read ascend. -/
theorem sorted_ofList (fs : Fields) : Fields.Sorted (Fields.ofList fs) :=
  sorted_merge List.Pairwise.nil fs

theorem key_mem_insert (h : l = k ∨ ∃ f ∈ fs, f.1 = l) : ∃ f ∈ Fields.insert k v fs, f.1 = l := by
  induction fs with
  | nil =>
    rcases h with rfl | ⟨f, hf, -⟩
    · exact ⟨(l, v), List.mem_singleton_self _, rfl⟩
    · cases hf
  | cons g fs ih =>
    obtain ⟨m, w⟩ := g
    rw [Fields.insert]
    split
    · rcases h with rfl | ⟨f, hf, rfl⟩
      · exact ⟨_, List.mem_cons_self .., rfl⟩
      · exact ⟨f, List.mem_cons_of_mem _ hf, rfl⟩
    split
    · rename_i he
      rcases h with rfl | ⟨f, hf, rfl⟩
      · exact ⟨_, List.mem_cons_self .., rfl⟩
      rcases List.mem_cons.1 hf with rfl | hf
      · exact ⟨_, List.mem_cons_self .., he⟩
      · exact ⟨f, List.mem_cons_of_mem _ hf, rfl⟩
    · rcases h with rfl | ⟨f, hf, rfl⟩
      · obtain ⟨f, hf, he⟩ := ih (.inl rfl)
        exact ⟨f, List.mem_cons_of_mem _ hf, he⟩
      rcases List.mem_cons.1 hf with rfl | hf
      · exact ⟨_, List.mem_cons_self .., rfl⟩
      · obtain ⟨g, hg, he⟩ := ih (.inr ⟨f, hf, rfl⟩)
        exact ⟨g, List.mem_cons_of_mem _ hg, he⟩

/-- Merging keeps every key. -/
theorem key_mem_merge (h : (∃ f ∈ fs, f.1 = l) ∨ ∃ g ∈ gs, g.1 = l) :
    ∃ f ∈ Fields.merge fs gs, f.1 = l := by
  induction gs generalizing fs with
  | nil => exact h.resolve_right fun ⟨_, hg, _⟩ => nomatch hg
  | cons g gs ih =>
    show ∃ f ∈ Fields.merge (Fields.insert g.1 g.2 fs) gs, f.1 = l
    rcases h with hf | ⟨g', hg', rfl⟩
    · exact ih (.inl (key_mem_insert (.inr hf)))
    rcases List.mem_cons.1 hg' with rfl | hg'
    · exact ih (.inl (key_mem_insert (.inl rfl)))
    · exact ih (.inr ⟨g', hg', rfl⟩)

/-- Where the first key is not `rawKey`, there is another one. -/
theorem onlyRaw_ofList (h : beginsRaw fs = false) : onlyRaw (Fields.ofList fs) = false := by
  cases fs with
  | nil => rfl
  | cons f fs =>
    obtain ⟨k, v⟩ := f
    have hk : k ≠ rawKey := of_decide_eq_false h
    obtain ⟨g, hg, hgk⟩ : ∃ f ∈ Fields.merge [] ((k, v) :: fs), f.1 = k :=
      key_mem_merge (.inr ⟨(k, v), List.mem_cons_self .., rfl⟩)
    show onlyRaw (Fields.merge [] ((k, v) :: fs)) = false
    unfold onlyRaw
    split
    · rename_i he
      rw [he, List.mem_singleton] at hg
      exact decide_eq_false fun hl => hk (hgk.symm.trans (by rw [hg]; exact hl))
    · rfl

end Fields

section Values

variable {steps depth : Nat} {first : Bool} {cs r : List Char} {v : Json} {xs : List Json}
  {fs : List (String × Json)}

theorem regularItems_iff : RegularItems xs ↔ ∀ x ∈ xs, x.Regular := by
  induction xs with
  | nil => simp [RegularItems]
  | cons x xs ih => rw [RegularItems, ih, List.forall_mem_cons]

theorem readWord_value {word : List Char} {value : Json}
    (h : readWord word value cs = .ok (v, r)) : v = value := by
  induction word generalizing cs with
  | nil =>
    cases h
    rfl
  | cons w word ih =>
    cases cs with
    | nil => cases h
    | cons c cs =>
      rw [readWord] at h
      split at h
      · exact ih h
      · cases h

theorem regular_of_readNumber {negative : Bool} {n : Number}
    (h : readNumber negative cs = .ok (n, r)) : (number n).Regular := by
  cases n with
  | int n => exact readNumber_exact h
  | float x => trivial

/-- What reading guarantees of a value. -/
structure Sound (v : Json) : Prop where
  regular : v.Regular
  settled : v.Settled

theorem readScalar_sound (h : readScalar cs = .ok (v, r)) : v.Sound := by
  rw [readScalar.eq_def] at h
  split at h
  · cases h
  · obtain rfl := readWord_value h
    exact ⟨trivial, rfl⟩
  · obtain rfl := readWord_value h
    exact ⟨trivial, rfl⟩
  · obtain rfl := readWord_value h
    exact ⟨trivial, rfl⟩
  · obtain ⟨⟨s, rest⟩, hs, he⟩ := exists_of_bind h
    cases he
    exact ⟨trivial, rfl⟩
  · obtain ⟨⟨n, rest⟩, hn, he⟩ := exists_of_bind h
    cases he
    exact ⟨regular_of_readNumber hn, rfl⟩
  · split at h
    · obtain ⟨⟨n, rest⟩, hn, he⟩ := exists_of_bind h
      cases he
      exact ⟨regular_of_readNumber hn, rfl⟩
    · cases h

/-- What a value that was read can be: one without parts, an array or an object of what was read
with a bound one lower, or what stands under `rawKey`. -/
theorem readValue_cases (h : readValue (steps + 1) depth cs = .ok (v, r)) :
    (∃ ds, readScalar ds = .ok (v, r)) ∨
    (∃ n ds xs, depth = n + 1 ∧ readItems steps n true ds = .ok (xs, r) ∧ v = .array xs) ∨
    (∃ ds, readRaw steps ds = .ok (v, r)) ∨
    ∃ n ds fs, depth = n + 1 ∧ afterRawKey? ds = none ∧
      readFields steps n true ds = .ok (fs, r) ∧ v = ofFields fs := by
  rw [readValue] at h
  split at h
  · split at h
    · cases h
    · obtain ⟨⟨xs, rest⟩, hxs, he⟩ := exists_of_bind h
      cases he
      exact .inr (.inl ⟨_, _, xs, rfl, hxs, rfl⟩)
  · split at h
    · cases h
    split at h
    · exact .inr (.inr (.inl ⟨_, h⟩))
    · rename_i hraw
      obtain ⟨⟨fs, rest⟩, hfs, he⟩ := exists_of_bind h
      cases he
      exact .inr (.inr (.inr ⟨_, _, fs, rfl, hraw, hfs, rfl⟩))
  · exact .inl ⟨_, of_mapError h⟩

/-- What stands under `rawKey` was read from the string that is its value, with the full bound. -/
theorem readRaw_cases (h : readRaw (steps + 1) cs = .ok (v, r)) :
    ∃ s rest tail, readRawText cs = .ok (s, tail) ∧
      readValue steps maxDepth s = .ok (v, rest) ∧ skipBlanks tail = '\x7d' :: r := by
  rw [readRaw] at h
  obtain ⟨⟨s, tail⟩, hs, h⟩ := exists_of_bind h
  simp only at h
  split at h
  · cases h
  · rename_i w hw
    split at h
    · rename_i htail
      cases h
      unfold whole? at hw
      split at hw
      · rename_i rest hread
        split at hw
        · exact ⟨s, rest, tail, hs, hread.trans (by rw [Option.some.inj hw]), htail⟩
        · cases hw
      · cases hw
    · cases h

/-- The items that were read: none, or a first one and others. -/
theorem readItems_cases (h : readItems (steps + 1) depth first cs = .ok (xs, r)) :
    xs = [] ∨ ∃ ds x rest ys, readValue steps depth ds = .ok (x, rest) ∧
      readItems steps depth false rest = .ok (ys, r) ∧ xs = x :: ys := by
  have hnext {ds : List Char} (h : (readValue steps depth ds >>= fun p =>
      readItems steps depth false p.2 >>= fun q => pure (p.1 :: q.1, q.2)) = .ok (xs, r)) :
      ∃ ds x rest ys, readValue steps depth ds = .ok (x, rest) ∧
        readItems steps depth false rest = .ok (ys, r) ∧ xs = x :: ys := by
    obtain ⟨⟨x, rest⟩, hx, h⟩ := exists_of_bind h
    obtain ⟨⟨ys, rest'⟩, hys, h⟩ := exists_of_bind h
    cases h
    exact ⟨ds, x, rest, ys, hx, hys, rfl⟩
  rw [readItems] at h
  split at h
  · cases h
  · cases h
    exact .inl rfl
  · split at h
    · exact .inr (hnext h)
    split at h
    · split at h
      · cases h
      · exact .inr (hnext h)
    · cases h

/-- The fields that were read: none, or those that a field begins. -/
theorem readFields_cases (h : readFields (steps + 1) depth first cs = .ok (fs, r)) :
    fs = [] ∨ ∃ ds, readField steps depth ds = .ok (fs, r) := by
  rw [readFields] at h
  split at h
  · cases h
  · cases h
    exact .inl rfl
  · split at h
    · exact .inr ⟨_, h⟩
    split at h
    · exact .inr ⟨_, h⟩
    · cases h

/-- A field that was read, and the others. -/
theorem readField_cases (h : readField (steps + 1) depth cs = .ok (fs, r)) :
    ∃ key ds x rest gs, readValue steps depth ds = .ok (x, rest) ∧
      readFields steps depth false rest = .ok (gs, r) ∧ fs = (key, x) :: gs := by
  rw [readField.eq_def] at h
  simp only at h
  split at h
  · obtain ⟨⟨key, rest⟩, -, h⟩ := exists_of_bind h
    simp only at h
    split at h
    · obtain ⟨⟨x, rest'⟩, hx, h⟩ := exists_of_bind h
      obtain ⟨⟨gs, rest''⟩, hgs, h⟩ := exists_of_bind h
      cases h
      exact ⟨_, _, x, rest', gs, hx, hgs, rfl⟩
    · cases h
  · cases h

/-- Fields that do not begin with `rawKey` in the text do not begin with it. -/
theorem beginsRaw_of_readFields (hraw : afterRawKey? cs = none)
    (h : readFields steps depth true cs = .ok (fs, r)) : beginsRaw fs = false := by
  match steps, h with
  | 0, h => cases h
  | 1, h =>
    rw [readFields] at h
    split at h
    · cases h
    · cases h
      rfl
    · cases h
  | steps + 2, h =>
    rw [readFields] at h
    split at h
    · cases h
    · cases h
      rfl
    rename_i hcs
    rw [if_pos rfl, readField.eq_def] at h
    simp only at h
    split at h
    · rename_i hq
      obtain ⟨⟨key, rest⟩, hkey, h⟩ := exists_of_bind h
      rw [afterRawKey?, hcs, hq] at hraw
      simp only [of_mapError hkey] at hraw
      have hne : String.ofList key ≠ rawKey := fun he => by simp [he] at hraw
      simp only at h
      split at h
      · obtain ⟨⟨x, rest'⟩, -, h⟩ := exists_of_bind h
        obtain ⟨⟨gs, rest''⟩, -, h⟩ := exists_of_bind h
        cases h
        exact decide_eq_false hne
      · cases h
    · cases h

theorem sound_array (h : ∀ x ∈ xs, x.Sound) : (array xs).Sound :=
  ⟨regularItems_iff.2 fun x hx => (h x hx).regular, settled_array.2 fun x hx => (h x hx).settled⟩

theorem sound_ofFields (hfirst : beginsRaw fs = false) (h : ∀ f ∈ fs, f.2.Sound) :
    (ofFields fs).Sound := by
  have hmem : ∀ f ∈ Fields.ofList fs, f.2.Sound := fun f hf =>
    h f ((mem_merge hf).resolve_left List.not_mem_nil)
  exact ⟨⟨sorted_ofList fs, regularFields_iff.2 fun f hf => (hmem f hf).regular⟩,
    settled_object.2 ⟨onlyRaw_ofList hfirst, fun f hf => (hmem f hf).settled⟩⟩

theorem Sound.of_mem_items (h : (array xs).Sound) : ∀ x ∈ xs, x.Sound := fun x hx =>
  ⟨regularItems_iff.1 h.regular x hx, settled_array.1 h.settled x hx⟩

theorem Sound.of_mem_fields (h : (object fs).Sound) : ∀ f ∈ fs, f.2.Sound := fun f hf =>
  ⟨regularFields_iff.1 h.regular.2 f hf, (settled_object.1 h.settled).2 f hf⟩

mutual

/-- A value that was read is regular and settled. -/
theorem readValue_sound : ∀ (steps depth : Nat) (cs : List Char) (v : Json) (r : List Char),
    readValue steps depth cs = .ok (v, r) → v.Sound
  | 0, _, _, _, _, h => nomatch h
  | steps + 1, depth, cs, v, r, h => by
    obtain ⟨ds, hscalar⟩ | ⟨n, ds, xs, rfl, hxs, rfl⟩ | ⟨ds, hraw⟩ | ⟨n, ds, fs, rfl, hraw, hfs, rfl⟩
      := readValue_cases h
    · exact readScalar_sound hscalar
    · exact sound_array (readItems_sound steps n true ds xs r hxs)
    · exact readRaw_sound steps ds v r hraw
    · exact sound_ofFields (beginsRaw_of_readFields hraw hfs)
        (readFields_sound steps n true ds fs r hfs)

theorem readRaw_sound : ∀ (steps : Nat) (cs : List Char) (v : Json) (r : List Char),
    readRaw steps cs = .ok (v, r) → v.Sound
  | 0, _, _, _, h => nomatch h
  | steps + 1, cs, v, r, h => by
    obtain ⟨s, rest, tail, -, hread, -⟩ := readRaw_cases h
    exact readValue_sound steps maxDepth s v rest hread

theorem readItems_sound : ∀ (steps depth : Nat) (first : Bool) (cs : List Char) (xs : List Json)
    (r : List Char), readItems steps depth first cs = .ok (xs, r) → ∀ x ∈ xs, x.Sound
  | 0, _, _, _, _, _, h => nomatch h
  | steps + 1, depth, first, cs, xs, r, h => by
    obtain rfl | ⟨ds, x, rest, ys, hx, hys, rfl⟩ := readItems_cases h
    · exact nofun
    · exact List.forall_mem_cons.2 ⟨readValue_sound steps depth ds x rest hx,
        readItems_sound steps depth false rest ys r hys⟩

theorem readFields_sound : ∀ (steps depth : Nat) (first : Bool) (cs : List Char)
    (fs : List (String × Json)) (r : List Char), readFields steps depth first cs = .ok (fs, r) →
      ∀ f ∈ fs, f.2.Sound
  | 0, _, _, _, _, _, h => nomatch h
  | steps + 1, depth, first, cs, fs, r, h => by
    obtain rfl | ⟨ds, hfs⟩ := readFields_cases h
    · exact nofun
    · exact readField_sound steps depth ds fs r hfs

theorem readField_sound : ∀ (steps depth : Nat) (cs : List Char) (fs : List (String × Json))
    (r : List Char), readField steps depth cs = .ok (fs, r) → ∀ f ∈ fs, f.2.Sound
  | 0, _, _, _, _, h => nomatch h
  | steps + 1, depth, cs, fs, r, h => by
    obtain ⟨key, ds, x, rest, gs, hx, hgs, rfl⟩ := readField_cases h
    exact List.forall_mem_cons.2 ⟨readValue_sound steps depth ds x rest hx,
      readFields_sound steps depth false rest gs r hgs⟩

end

/-- The whole of a text was read. -/
theorem readValue_of_read (h : read cs = .ok v) :
    ∃ rest, readValue (2 * cs.length + 2) maxDepth cs = .ok (v, rest) := by
  obtain ⟨⟨w, rest⟩, hread, h⟩ := exists_of_bind h
  simp only at h
  split at h
  · cases h
    exact ⟨rest, hread⟩
  · cases h

/-- A value that a whole text spells is regular and settled. -/
theorem read_sound (h : read cs = .ok v) : v.Sound := by
  obtain ⟨rest, hread⟩ := readValue_of_read h
  exact readValue_sound _ _ _ _ _ hread

end Values

section Bounds

variable {α β : Type} {x y : Except ReadFault α}

/-- The first answer is the second, unless it is a refusal. -/
def UnlessRefused (x y : Except ReadFault α) : Prop := x = y ∨ x = .error (.text .malformed)

theorem UnlessRefused.bind {f g : α → Except ReadFault β} (h : UnlessRefused x y)
    (hfg : ∀ a, UnlessRefused (f a) (g a)) : UnlessRefused (x >>= f) (y >>= g) := by
  rcases h with rfl | rfl
  · cases x with
    | error e => exact .inl rfl
    | ok a => exact hfg a
  · exact .inr rfl

mutual

/-- A lower bound gives the same answer, or refuses the text as malformed. -/
theorem readValue_unlessRefused : ∀ (steps : Nat) {d d' : Nat}, d ≤ d' → ∀ cs : List Char,
    UnlessRefused (readValue steps d cs) (readValue steps d' cs)
  | 0, _, _, _, _ => .inl rfl
  | steps + 1, d, d', hd, cs => by
    rw [readValue, readValue]
    split
    case h_1 r _ =>
      match d, d', hd with
      | 0, _, _ => exact .inr rfl
      | d + 1, d' + 1, hd =>
        exact (readItems_unlessRefused steps (Nat.le_of_succ_le_succ hd) true r).bind
          fun _ => .inl rfl
    case h_2 r _ =>
      match d, d', hd with
      | 0, _, _ => exact .inr rfl
      | d + 1, d' + 1, hd =>
        simp only
        split
        -- what stands under `rawKey` has a bound of its own
        · exact .inl rfl
        · exact (readFields_unlessRefused steps (Nat.le_of_succ_le_succ hd) true r).bind
            fun _ => .inl rfl
    case h_3 => exact .inl rfl

theorem readItems_unlessRefused : ∀ (steps : Nat) {d d' : Nat}, d ≤ d' →
    ∀ (first : Bool) (cs : List Char),
      UnlessRefused (readItems steps d first cs) (readItems steps d' first cs)
  | 0, _, _, _, _, _ => .inl rfl
  | steps + 1, d, d', hd, first, cs => by
    have hnext (cs : List Char) : UnlessRefused
        (readValue steps d cs >>= fun p => readItems steps d false p.2 >>= fun q =>
          pure (p.1 :: q.1, q.2))
        (readValue steps d' cs >>= fun p => readItems steps d' false p.2 >>= fun q =>
          pure (p.1 :: q.1, q.2)) :=
      (readValue_unlessRefused steps hd cs).bind fun p =>
        (readItems_unlessRefused steps hd false p.2).bind fun _ => .inl rfl
    rw [readItems, readItems]
    split
    · exact .inl rfl
    · exact .inl rfl
    · split
      · exact hnext _
      split
      · split
        · exact .inl rfl
        · exact hnext _
      · exact .inl rfl

theorem readFields_unlessRefused : ∀ (steps : Nat) {d d' : Nat}, d ≤ d' →
    ∀ (first : Bool) (cs : List Char),
      UnlessRefused (readFields steps d first cs) (readFields steps d' first cs)
  | 0, _, _, _, _, _ => .inl rfl
  | steps + 1, d, d', hd, first, cs => by
    rw [readFields, readFields]
    split
    · exact .inl rfl
    · exact .inl rfl
    · split
      · exact readField_unlessRefused steps hd _
      split
      · exact readField_unlessRefused steps hd _
      · exact .inl rfl

theorem readField_unlessRefused : ∀ (steps : Nat) {d d' : Nat}, d ≤ d' → ∀ cs : List Char,
    UnlessRefused (readField steps d cs) (readField steps d' cs)
  | 0, _, _, _, _ => .inl rfl
  | steps + 1, d, d', hd, cs => by
    rw [readField.eq_def, readField.eq_def]
    simp only
    split
    · refine UnlessRefused.bind (.inl rfl) fun p => ?_
      split
      · exact (readValue_unlessRefused steps hd _).bind fun q =>
          (readFields_unlessRefused steps hd false q.2).bind fun _ => .inl rfl
      · exact .inl rfl
    · exact .inl rfl

end

end Bounds
end Json
end EventSourcing
