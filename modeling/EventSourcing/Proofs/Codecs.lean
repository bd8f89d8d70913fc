import EventSourcing.Proofs.JsonExtent
import EventSourcing.Serializer

/-!
# Records are read back

A record is written as the text of its value and read in two steps, from the text to a value and
from the value to a record. The second step is the inverse of writing on plain values and gives
nothing that has `Json.rawKey` as an only key (`Codec.Faithful`). So a record with a canonical value
is read back from its bytes if and only if its value is plain and not too deep
(`deserialize_serialize_iff`): one that is not plain is refused, or another record is read in its
place.
-/

namespace EventSourcing

namespace Json

mutual

/-- Whether a value is canonical. -/
def decCanonical : (v : Json) → Decidable v.Canonical
  | .null | .bool _ | .string _ => .isTrue trivial
  | .number (.int n) => inferInstanceAs (Decidable (exactInt n = true))
  | .number (.float _) => .isFalse id
  | .array items => decCanonicalItems items
  | .object fields =>
    @instDecidableAnd _ _ (List.instDecidablePairwise fields) (decCanonicalFields fields)

/-- Whether every item is canonical. -/
def decCanonicalItems : (xs : List Json) → Decidable (CanonicalItems xs)
  | [] => .isTrue trivial
  | x :: xs => @instDecidableAnd _ _ (decCanonical x) (decCanonicalItems xs)

/-- Whether every field value is canonical. -/
def decCanonicalFields : (fs : Fields) → Decidable (CanonicalFields fs)
  | [] => .isTrue trivial
  | (_, x) :: fs => @instDecidableAnd _ _ (decCanonical x) (decCanonicalFields fs)

end

instance : DecidablePred Canonical := decCanonical

/-- Plain, and no deeper than what is read. -/
def Readable (v : Json) : Prop := v.Plain ∧ v.depth ≤ maxDepth

instance : DecidablePred Readable := fun v =>
  inferInstanceAs (Decidable (v.Plain ∧ v.depth ≤ maxDepth))

/-- The object that the reader takes for the value that a text spells. -/
def raw (text : String) : Json := .object [(rawKey, .string text)]

/-- A value that is read back from its text. -/
def Storable (v : Json) : Prop := v.Canonical ∧ v.Readable

instance : DecidablePred Storable := fun v => inferInstanceAs (Decidable (v.Canonical ∧ v.Readable))

end Json

/-- Records with plain values are read back from their values, and what is read from a value that
was read has a settled value. -/
structure Codec.Faithful {α : Type} (codec : Codec α) : Prop where
  read?_write : ∀ {x}, (codec.write x).Plain → codec.read? (codec.write x) = some x
  settled : ∀ {v x}, v.Sound → codec.read? v = some x → (codec.write x).Settled

theorem Json.faithful_codec : Json.codec.Faithful where
  read?_write := settle_of_plain
  settled hv h := by
    obtain ⟨rfl, hplain⟩ := settle_of_settled hv.settled h
    exact settled_of_plain hplain

namespace Payload

variable {p : Payload} {v : Json}

theorem canonical_write (h : p.data.Canonical) : (codec.write p).Canonical :=
  ⟨List.pairwise_pair.2 (show "data" < "kind" by decide), h, trivial, trivial⟩

/-- The object around data is one more level. -/
theorem depth_write (p : Payload) : (codec.write p).depth = p.data.depth + 1 := by
  show max p.data.depth (max 0 0) + 1 = _
  rw [Nat.max_self, Nat.max_zero]

theorem plain_write : (codec.write p).Plain ↔ p.data.Plain := by
  show (Json.object [("data", p.data), ("kind", .string p.kind)]).Plain ↔ _
  simp [show "data" ≠ Json.rawKey by decide]

/-- Data that is read is regular and plain. -/
theorem of_ofJson? (hv : v.Sound) (h : ofJson? v = some p) : p.data.Regular ∧ p.data.Plain := by
  have hdata : ∃ w : Json, w.Sound ∧ w.settle = some p.data := by
    rw [ofJson?.eq_def] at h
    split at h
    · split at h
      · rename_i hget
        obtain ⟨data, hdata, rfl⟩ := Option.map_eq_some_iff.1 h
        obtain ⟨f, hf, rfl⟩ := Option.map_eq_some_iff.1 hget
        exact ⟨f.2, hv.of_mem_fields f (List.mem_of_find?_eq_some hf), hdata⟩
      · cases h
    · obtain ⟨data, hdata, rfl⟩ := Option.map_eq_some_iff.1 h
      exact ⟨_, hv.of_mem_items _ (List.mem_cons_of_mem _ (List.mem_singleton_self _)), hdata⟩
    · cases h
  obtain ⟨w, hw, hsettle⟩ := hdata
  obtain ⟨he, hplain⟩ := Json.settle_of_settled hw.settled hsettle
  exact ⟨he ▸ hw.regular, he ▸ hplain⟩

theorem faithful_codec : codec.Faithful where
  read?_write h := ofJson?_toJson (plain_write.1 h)
  settled hv h := Json.settled_of_plain (plain_write.2 (of_ofJson? hv h).2)

end Payload

/-- Headers that are read are the fields of the value. -/
theorem eq_of_headersOf? {v : Json} {headers : Fields} (hv : v.Settled)
    (h : headersOf? v = some headers) : v = .object headers := by
  cases v with
  | object fields =>
    exact congrArg _ (Json.settleFields_of_settled (Json.settled_object.1 hv).2 h).1.symm
  | _ => cases h

theorem headersCodec_faithful : headersCodec.Faithful where
  read?_write := headersOf?_object
  settled hv h := by
    obtain rfl := eq_of_headersOf? hv.settled h
    exact hv.settled

namespace Event

variable {e : Event} {es : List Event} {v : Json}

theorem canonical_toJson (hbody : e.body.data.Canonical)
    (hheaders : (Json.object e.headers).Canonical) : e.toJson.Canonical :=
  ⟨List.pairwise_pair.2 (show "body" < "headers" by decide), Payload.canonical_write hbody,
    hheaders, trivial⟩

theorem canonical_write_list
    (h : ∀ e ∈ es, e.body.data.Canonical ∧ (Json.object e.headers).Canonical) :
    (listCodec.write es).Canonical := by
  show Json.CanonicalItems (es.map toJson)
  induction es with
  | nil => trivial
  | cons e es ih =>
    obtain ⟨he, hes⟩ := List.forall_mem_cons.1 h
    exact ⟨canonical_toJson he.1 he.2, ih hes⟩

theorem plain_toJson :
    e.toJson.Plain ↔ e.body.data.Plain ∧ (Json.object e.headers).Plain := by
  show (Json.object [("body", e.body.toJson), ("headers", .object e.headers)]).Plain ↔ _
  have hbody : e.body.toJson.Plain ↔ e.body.data.Plain := Payload.plain_write
  simp [show "body" ≠ Json.rawKey by decide, hbody]

theorem plain_write_list : (listCodec.write es).Plain ↔
    ∀ e ∈ es, e.body.data.Plain ∧ (Json.object e.headers).Plain := by
  show (Json.array (es.map toJson)).Plain ↔ _
  rw [Json.plain_array, Json.plainItems_iff, List.forall_mem_map]
  exact forall₂_congr fun e _ => plain_toJson

/-- What is read as an event has settled data and settled headers. -/
theorem settled_of_ofJson? (hv : v.Sound) (h : ofJson? v = some e) : e.toJson.Settled := by
  have hparts : ∃ (w : Json) (body : Payload), w.Sound ∧ Payload.ofJson? w = some body ∧
      e.body = body ∧ (e.headers = [] ∨ ∃ u : Json, u.Sound ∧ headersOf? u = some e.headers) := by
    rw [ofJson?.eq_def] at h
    split at h
    · obtain ⟨w, hw, hrest⟩ := Option.bind_eq_some_iff.1 h
      obtain ⟨body, hbody, he⟩ := Option.bind_eq_some_iff.1 hrest
      obtain ⟨f, hf, hfw⟩ := Option.map_eq_some_iff.1 hw
      have hsound : w.Sound := hfw ▸ hv.of_mem_fields f (List.mem_of_find?_eq_some hf)
      split at he
      · cases he
        exact ⟨w, body, hsound, hbody, rfl, .inl rfl⟩
      · rename_i hget
        obtain ⟨headers, hheaders, rfl⟩ := Option.map_eq_some_iff.1 he
        obtain ⟨g, hg, rfl⟩ := Option.map_eq_some_iff.1 hget
        exact ⟨w, body, hsound, hbody, rfl,
          .inr ⟨g.2, hv.of_mem_fields g (List.mem_of_find?_eq_some hg), hheaders⟩⟩
    · obtain ⟨body, hbody, h⟩ := Option.bind_eq_some_iff.1 h
      cases h
      exact ⟨_, body, hv.of_mem_items _ (List.mem_cons_self ..), hbody, rfl, .inl rfl⟩
    · obtain ⟨body, hbody, h⟩ := Option.bind_eq_some_iff.1 h
      obtain ⟨headers, hheaders, h⟩ := Option.bind_eq_some_iff.1 h
      cases h
      exact ⟨_, body, hv.of_mem_items _ (List.mem_cons_self ..), hbody, rfl,
        .inr ⟨_, hv.of_mem_items _ (by simp), hheaders⟩⟩
    · cases h
  obtain ⟨w, body, hw, hbody, rfl, hheaders⟩ := hparts
  have hsettled : (Json.object e.headers).Settled := by
    obtain he | ⟨u, hu, hheaders⟩ := hheaders
    · rw [he]
      rfl
    · exact eq_of_headersOf? hu.settled hheaders ▸ hu.settled
  refine Json.settled_object.2
    ⟨rfl, List.forall_mem_cons.2 ⟨?_, List.forall_mem_singleton.2 hsettled⟩⟩
  exact Payload.faithful_codec.settled hw hbody

theorem faithful_listCodec : listCodec.Faithful where
  read?_write {es} h := by
    have hes := plain_write_list.1 h
    show (es.map toJson).mapM ofJson? = some es
    clear h
    induction es with
    | nil => rfl
    | cons e es ih =>
      obtain ⟨he, hes⟩ := List.forall_mem_cons.1 hes
      rw [List.map_cons, List.mapM_cons, ofJson?_toJson he.1 he.2, ih hes]
      rfl
  settled {v es} hv h := by
    cases v with
    | array items =>
      have hall := hv.of_mem_items
      replace h : items.mapM ofJson? = some es := h
      show (Json.array (es.map toJson)).Settled
      rw [Json.settled_array, List.forall_mem_map]
      clear hv
      induction items generalizing es with
      | nil =>
        cases h
        exact nofun
      | cons x items ih =>
        obtain ⟨hx, hitems⟩ := List.forall_mem_cons.1 hall
        rw [List.mapM_cons] at h
        obtain ⟨e, he, hrest⟩ := Option.bind_eq_some_iff.1 h
        obtain ⟨fs, hfs, hes⟩ := Option.bind_eq_some_iff.1 hrest
        cases hes
        exact List.forall_mem_cons.2 ⟨settled_of_ofJson? hx he, ih hitems hfs⟩
    | _ => cases h

end Event

section Records

variable {α : Type} {codec : Codec α} {layout : Layout} {x : α} {bs : Bytes}

/-- What is read was read from the value of a text. -/
theorem exists_of_deserialize (h : deserialize codec bs = .ok x) : ∃ cs v,
    Utf8.decode bs = .ok cs ∧ Json.read cs = .ok v ∧ codec.read? v = some x := by
  rw [deserialize, readJson] at h
  cases hutf : Utf8.decode bs with
  | error e =>
    rw [hutf] at h
    cases h
  | ok cs =>
    rw [hutf] at h
    simp only at h
    cases hread : Json.read cs with
    | error e =>
      rw [hread] at h
      cases h
    | ok v =>
      rw [hread] at h
      simp only at h
      cases hx : codec.read? v with
      | none =>
        rw [hx] at h
        cases h
      | some y =>
        rw [hx] at h
        cases h
        exact ⟨cs, v, rfl, hread, hx⟩

/-- Records are read back from their bytes. -/
theorem deserialize_serialize (hcodec : codec.Faithful) (h : (codec.write x).Storable) :
    deserialize codec (serialize codec layout x) = .ok x := by
  rw [deserialize, readJson, serialize, Utf8.decode_encode]
  simp only [Json.read_text layout h.1 h.2.1 h.2.2, hcodec.read?_write h.2.1]

/-- **A record with a canonical value is read back from its bytes if and only if its value is plain
and not too deep.** -/
theorem deserialize_serialize_iff (hcodec : codec.Faithful) (h : (codec.write x).Canonical) :
    deserialize codec (serialize codec layout x) = .ok x ↔ (codec.write x).Readable := by
  refine ⟨fun hread => ?_, fun hx => deserialize_serialize hcodec ⟨h, hx⟩⟩
  obtain ⟨cs, v, hcs, hv, hx⟩ := exists_of_deserialize hread
  rw [serialize, Utf8.decode_encode] at hcs
  cases hcs
  have hextent := Json.read_extent hv
  have hplain := hextent.lone.plain (hcodec.settled (Json.read_sound hv) hx)
  exact ⟨hplain, hextent.depth_le hplain⟩

/-- A plain record that is too deep is refused when it is read. -/
theorem deserialize_deep (layout : Layout) (h : (codec.write x).Canonical)
    (hplain : (codec.write x).Plain) (hd : Json.maxDepth < (codec.write x).depth) :
    deserialize codec (serialize codec layout x) = .error (.notJson .malformed) := by
  rw [deserialize, readJson, serialize, Utf8.decode_encode]
  simp only [Json.read_text_deep layout h hplain hd]
  rfl

end Records

end EventSourcing
