import EventSourcing.Proofs.ReadBack

/-!
# Records survive the serializer up to the limit of depth

What is serialized is the text of a value in one of two layouts, and reading takes either. So it
does not matter which layout the reader would write in. A record whose value is plain comes back as
it was if the value is no deeper than `Json.maxDepth`, and is refused if it is deeper; a record
whose value is not plain never comes back (`Survives`). The values of the records are canonical if
the values that callers put into them are, since the records themselves add objects with ascending
keys and strings only.
-/

namespace EventSourcing

/-- What is read of a record that was written: the record, if its value is not too deep. -/
def comesBack {α : Type} (codec : Codec α) (x : α) : Except SerializationFault α :=
  if (codec.write x).depth ≤ Json.maxDepth then .ok x else .error (.notJson .malformed)

/-- A record comes back up to the limit of depth if its value is plain, and never if it is not. -/
structure Survives {α : Type} (codec : Codec α) (layout : Layout) (x : α) : Prop where
  plain : (codec.write x).Plain →
    deserialize codec (serialize codec layout x) = comesBack codec x
  raw : ¬ (codec.write x).Plain → deserialize codec (serialize codec layout x) ≠ .ok x

theorem survives {α : Type} {codec : Codec α} {x : α} (layout : Layout) (hcodec : codec.Faithful)
    (h : (codec.write x).Canonical) : Survives codec layout x where
  plain hplain := by
    rw [comesBack]
    split
    case isTrue hd => exact deserialize_serialize hcodec ⟨h, hplain, hd⟩
    case isFalse hd => exact deserialize_deep layout h hplain (Nat.not_le.1 hd)
  raw hraw hread := hraw ((deserialize_serialize_iff hcodec h).1 hread).1

/-- **Records survive the serializer, exactly up to the limit of depth.**  In either layout, a
value, a payload, a header map and a list of events come back as they were if their values are no
deeper than `Json.maxDepth`, and are refused as malformed text if they are deeper. The numbers in
them are integers that are kept exactly, and keys ascend. All this is so if and only if no object in
them begins with `Json.rawKey`: otherwise they come back at no depth. -/
theorem records_survive (layout : Layout) :
    (∀ v : Json, v.Canonical → Survives Json.codec layout v) ∧
    (∀ p : Payload, p.data.Canonical → Survives Payload.codec layout p) ∧
    (∀ h : Fields, (Json.object h).Canonical → Survives headersCodec layout h) ∧
    ∀ es : List Event,
      (∀ e ∈ es, e.body.data.Canonical ∧ (Json.object e.headers).Canonical) →
      Survives Event.listCodec layout es :=
  ⟨fun _ hv => survives layout Json.faithful_codec hv,
    fun _ hp => survives layout Payload.faithful_codec (Payload.canonical_write hp),
    fun _ hh => survives layout headersCodec_faithful hh,
    fun _ hes => survives layout Event.faithful_listCodec (Event.canonical_write_list hes)⟩

/-- An event with texts that are escaped, the extreme integers, and data of depth `n + 1`. -/
def deepEvent (n : Nat) : Event where
  body := ⟨"kind\n", .array [Database.nested n, .int 18446744073709551615]⟩
  headers := [("a", .string "\x01\"é"), ("b", .int (-9223372036854775808))]

theorem records_survive_deepEvent :
    (∀ e ∈ [deepEvent 123], e.body.data.Canonical ∧ (Json.object e.headers).Canonical) ∧
      deserialize Event.listCodec (serialize Event.listCodec .indented [deepEvent 123])
        = .ok [deepEvent 123] ∧
      (∀ e ∈ [deepEvent 124], e.body.data.Canonical ∧ (Json.object e.headers).Canonical) ∧
      deserialize Event.listCodec (serialize Event.listCodec .indented [deepEvent 124])
        = .error (.notJson .malformed) ∧
      (Database.nested 127).Canonical ∧
      deserialize Json.codec (serialize Json.codec .compact (Database.nested 127))
        = .ok (Database.nested 127) ∧
      (deepEvent 125).body.data.Canonical ∧
      deserialize Payload.codec (serialize Payload.codec .compact (deepEvent 125).body)
        = .ok (deepEvent 125).body ∧
      (Json.object [("a", Database.nested 127)]).Canonical ∧
      deserialize headersCodec (serialize headersCodec .compact [("a", Database.nested 127)])
        = .error (.notJson .malformed) := by
  obtain ⟨hvalues, hpayloads, hheaders, -⟩ := records_survive .compact
  obtain ⟨-, -, -, hevents⟩ := records_survive .indented
  have h123 : ∀ e ∈ [deepEvent 123], e.body.data.Canonical ∧ (Json.object e.headers).Canonical := by
    decide +kernel
  have h124 : ∀ e ∈ [deepEvent 124], e.body.data.Canonical ∧ (Json.object e.headers).Canonical := by
    decide +kernel
  have hvalue : (Database.nested 127).Canonical := by decide +kernel
  have hpayload : (deepEvent 125).body.data.Canonical := by decide +kernel
  have hheader : (Json.object [("a", Database.nested 127)]).Canonical := by decide +kernel
  exact ⟨h123, ((hevents _ h123).plain (by decide +kernel)).trans (if_pos (by decide +kernel)),
    h124, ((hevents _ h124).plain (by decide +kernel)).trans (if_neg (by decide +kernel)), hvalue,
    ((hvalues _ hvalue).plain (by decide +kernel)).trans (if_pos (by decide +kernel)), hpayload,
    ((hpayloads _ hpayload).plain (by decide +kernel)).trans (if_pos (by decide +kernel)), hheader,
    ((hheaders _ hheader).plain (by decide +kernel)).trans (if_neg (by decide +kernel))⟩

/-- An object of one field that begins with `Json.rawKey` is read back as the number that its string
spells, and one whose string spells no value is refused. -/
theorem raw_not_survived :
    (Json.raw "1").Canonical ∧
      (Json.raw "1").depth ≤ Json.maxDepth ∧
      deserialize Json.codec
          (serialize Json.codec .compact (.raw "1")) = .ok (.int 1) ∧
      (Json.raw "x").Canonical ∧
      deserialize Json.codec
          (serialize Json.codec .compact (.raw "x"))
        = .error .mistyped ∧
      deserialize Json.codec
          (serialize Json.codec .compact (.raw "1"))
        ≠ .ok (.raw "1") := by
  have hread : deserialize Json.codec
      (serialize Json.codec .compact (.raw "1")) = .ok (.int 1) := by
    decide +kernel
  refine ⟨by decide +kernel, by decide, hread, by decide +kernel, by decide +kernel, ?_⟩
  rw [hread]
  exact fun h => nomatch h

end EventSourcing
