import EventSourcing.Proofs.Registry

/-!
# Where following converters ends

Converters are followed for as long as the kind of the payload has one, and nothing in a converter
bounds that. `Converting` says so without a bound: it gives the steps taken and the answer, if there
is one. That an accepted registry always gives an answer rests on its kinds ending (`Ends`), so the
path from a kind is found by induction on that (`exists_convertsAlong`).

The kinds on a path are different, since no kind comes back to itself
(`ConvertsAlong.nodup_sources`), hence a path has no more converters than there are
(`ConvertsAlong.length_le`), and the bound that `convertPayload` counts down from is never what
stops it (`Converting.convertWithin_eq`). What it answers is what the converters on the path answer,
one after the other (`Upconverter.convertPayload_along`).
-/

namespace EventSourcing

/-- The converters that are followed from a kind, first one first, and the kind where they end. -/
inductive ConvertsAlong (cs : List Converter) : String → List Converter → String → Prop
  | ends {kind : String} : converterOf cs kind = none → ConvertsAlong cs kind [] kind
  | step {kind final : String} {c : Converter} {path : List Converter} :
      converterOf cs kind = some c → ConvertsAlong cs c.target path final →
        ConvertsAlong cs kind (c :: path) final

/-- The data that converters give, each from the data of the one before it. -/
def applyInTurn (path : List Converter) (data : Json) : Except ConversionFault Json :=
  path.foldlM (fun data c => c.convert data) data

/-- A payload is converted, in so many steps, to an answer: as long as its kind has a converter that
does not fail, the payload is replaced. -/
inductive Converting (u : Upconverter) : Payload → Nat → Except ConversionFault Payload → Prop
  | done {p : Payload} : converterOf u.converters p.kind = none → Converting u p 0 (.ok p)
  | failed {p : Payload} {c : Converter} {e : ConversionFault} :
      converterOf u.converters p.kind = some c → c.convert p.data = .error e →
        Converting u p 1 (.error e)
  | next {p : Payload} {c : Converter} {data : Json} {steps : Nat}
      {answer : Except ConversionFault Payload} :
      converterOf u.converters p.kind = some c → c.convert p.data = .ok data →
        Converting u ⟨c.target, data⟩ steps answer → Converting u p (steps + 1) answer

variable {cs : List Converter} {c : Converter} {kind final : String} {path : List Converter}
  {u : Upconverter} {p : Payload} {data : Json}

/-- From a kind that ends, converters lead somewhere. -/
theorem exists_convertsAlong (h : Ends cs kind) :
    ∃ path final, ConvertsAlong cs kind path final := by
  induction h with
  | intro kind _ ih =>
    cases hc : converterOf cs kind with
    | none => exact ⟨[], kind, .ends hc⟩
    | some c =>
      obtain ⟨path, final, hpath⟩ := ih c.target (convertsTo_of_converterOf hc)
      exact ⟨c :: path, final, .step hc hpath⟩

namespace ConvertsAlong

theorem converterOf_final (h : ConvertsAlong cs kind path final) : converterOf cs final = none := by
  induction h with
  | ends hnone => exact hnone
  | step _ _ ih => exact ih

theorem subset (h : ConvertsAlong cs kind path final) : path ⊆ cs := by
  induction h with
  | ends => exact List.nil_subset _
  | step hc _ ih => exact List.cons_subset.2 ⟨List.mem_of_find?_eq_some hc, ih⟩

/-- Every converter on the path is of a kind that the first kind leads to. -/
theorem reaches (h : ConvertsAlong cs kind path final) :
    ∀ c ∈ path, Relation.ReflTransGen (ConvertsTo cs) kind c.source := by
  induction h with
  | ends => simp
  | @step kind final c path hc _ ih =>
    refine List.forall_mem_cons.2 ⟨?_, fun d hd => .head (convertsTo_of_converterOf hc) (ih d hd)⟩
    rw [source_of_converterOf hc]

/-- No kind comes twice on a path if none comes back to itself. -/
theorem nodup_sources (hacyclic : Acyclic cs) (h : ConvertsAlong cs kind path final) :
    (path.map (·.source)).Nodup := by
  induction h with
  | ends => exact List.nodup_nil
  | @step kind final c path hc hrest ih =>
    refine List.nodup_cons.2 ⟨?_, ih⟩
    intro hmem
    obtain ⟨d, hd, hsource⟩ := List.mem_map.1 hmem
    have hkind : d.source = kind := hsource.trans (source_of_converterOf hc)
    have hback : Relation.ReflTransGen (ConvertsTo cs) c.target kind := hkind ▸ hrest.reaches d hd
    exact hacyclic kind (.head' (convertsTo_of_converterOf hc) hback)

theorem length_le (hacyclic : Acyclic cs) (h : ConvertsAlong cs kind path final) :
    path.length ≤ cs.length :=
  (List.Nodup.of_map _ (h.nodup_sources hacyclic)).length_le_of_subset h.subset

/-- A payload whose kind leads somewhere is converted along the path: up to the first converter that
fails, or to the end. -/
theorem converting (h : ConvertsAlong u.converters p.kind path final) :
    (∃ before c after data e, path = before ++ c :: after ∧
      applyInTurn before p.data = .ok data ∧ c.convert data = .error e ∧
      Converting u p (before.length + 1) (.error e)) ∨
    ∃ data, applyInTurn path p.data = .ok data ∧
      Converting u p path.length (.ok ⟨final, data⟩) := by
  obtain ⟨kind, data⟩ := p
  dsimp only at h ⊢
  induction h generalizing data with
  | ends hnone => exact .inr ⟨data, rfl, .done hnone⟩
  | @step kind final c path hc _ ih =>
    cases hconvert : c.convert data with
    | error e => exact .inl ⟨[], c, path, data, e, rfl, rfl, hconvert, .failed hc hconvert⟩
    | ok next =>
      have hcons (more : List Converter) :
          applyInTurn (c :: more) data = applyInTurn more next := by
        simp only [applyInTurn, List.foldlM_cons, hconvert]
        rfl
      obtain ⟨before, d, after, last, e, rfl, hbefore, hd, hsteps⟩ | ⟨last, hlast, hsteps⟩ :=
        ih next
      · exact .inl ⟨c :: before, d, after, last, e, rfl, (hcons before).trans hbefore, hd,
          .next hc hconvert hsteps⟩
      · exact .inr ⟨last, (hcons path).trans hlast, .next hc hconvert hsteps⟩

end ConvertsAlong

/-- With at least as many steps as it takes, a bounded conversion gives the same answer. -/
theorem Converting.convertWithin_eq {steps bound : Nat} {answer : Except ConversionFault Payload}
    (h : Converting u p steps answer) (hbound : steps ≤ bound) :
    u.convertWithin bound p = answer := by
  induction h generalizing bound with
  | done hnone =>
    cases bound with
    | zero => rfl
    | succ bound => rw [Upconverter.convertWithin, hnone]
  | failed hc he =>
    obtain ⟨bound, rfl⟩ : ∃ b, bound = b + 1 := ⟨bound - 1, by omega⟩
    rw [Upconverter.convertWithin, hc]
    simp only [he]
  | next hc hdata _ ih =>
    obtain ⟨bound, rfl⟩ : ∃ b, bound = b + 1 := ⟨bound - 1, by omega⟩
    rw [Upconverter.convertWithin, hc]
    simp only [hdata]
    exact ih (Nat.le_of_succ_le_succ hbound)

namespace Upconverter

/-- What `build` accepts has no kind twice and no cycle, and every kind ends. -/
theorem sound_of_build (h : build cs = .ok u) :
    u.converters = cs ∧ Acyclic cs ∧ ∀ kind, Ends cs kind := by
  rw [build] at h
  split at h
  · cases h
  split at h
  · cases h
  rename_i hrepeated _ hsearch
  cases h
  obtain ⟨-, hnodup, -⟩ | ⟨_, _, _, -, hsome, -⟩ := repeatedSource_cases [] cs
  · have hends := findCycle_eq_none hnodup (by simp) hsearch
    refine ⟨rfl, acyclic_of_ends hends, fun kind => ?_⟩
    cases hc : converterOf cs kind with
    | none => exact .of_none hc
    | some c => exact hends kind (mem_sources_of_converterOf hc)
  · rw [hrepeated] at hsome
    cases hsome

/-- **Conversion ends.**  In a registry that was accepted, the converters of a payload's kind lead
to a kind without converter. Following them ends after no more steps than there are converters, and
the answer is the fault of the first that fails, or the data that all of them give one after the
other, under the last kind. -/
theorem convertPayload_along (h : build cs = .ok u) (p : Payload) :
    ∃ path final, ConvertsAlong u.converters p.kind path final ∧ u.converts final = false ∧
      (∃ steps ≤ u.size, Converting u p steps (u.convertPayload p)) ∧
      ((∃ before c after data e, path = before ++ c :: after ∧
          applyInTurn before p.data = .ok data ∧ c.convert data = .error e ∧
          u.convertPayload p = .error e) ∨
        ∃ data, applyInTurn path p.data = .ok data ∧
          u.convertPayload p = .ok ⟨final, data⟩) := by
  obtain ⟨rfl, hacyclic, hends⟩ := sound_of_build h
  obtain ⟨path, final, hpath⟩ := exists_convertsAlong (hends p.kind)
  have hfinal : u.converts final = false := by
    rw [converts, hpath.converterOf_final]
    rfl
  have hlength : path.length ≤ u.size := hpath.length_le hacyclic
  refine ⟨path, final, hpath, hfinal, ?_⟩
  obtain ⟨before, c, after, data, e, hbefore, hdata, hc, hsteps⟩ | ⟨data, hdata, hsteps⟩ :=
    hpath.converting
  · have hbound : before.length + 1 ≤ u.size := by
      rw [hbefore, List.length_append, List.length_cons] at hlength
      omega
    have hanswer : u.convertPayload p = .error e := hsteps.convertWithin_eq hbound
    exact ⟨⟨_, hbound, hanswer ▸ hsteps⟩,
      .inl ⟨before, c, after, data, e, hbefore, hdata, hc, hanswer⟩⟩
  · have hanswer : u.convertPayload p = .ok ⟨final, data⟩ := hsteps.convertWithin_eq hlength
    exact ⟨⟨_, hlength, hanswer ▸ hsteps⟩, .inr ⟨data, hdata, hanswer⟩⟩

/-- A converter that puts a string into an array and refuses all other data. -/
def wrapString (source target : String) : Converter where
  source := source
  target := target
  convert
    | .string s => .ok (.array [.string s])
    | _ => .error (.failed source "no string")

/-- Two converters in a row, of which the second refuses what the first gives. -/
def wrapTwice : List Converter := [wrapString "b" "c", wrapString "a" "b"]

theorem convertPayload_along_wrapTwice :
    build wrapTwice = .ok ⟨wrapTwice⟩ ∧
      (∃ steps ≤ 2, Converting ⟨wrapTwice⟩ ⟨"a", .string "x"⟩ steps
        (.error (.failed "b" "no string"))) ∧
      (∃ steps ≤ 2, Converting ⟨wrapTwice⟩ ⟨"b", .string "x"⟩ steps
        (.ok ⟨"c", .array [.string "x"]⟩)) := by
  have hbuild : build wrapTwice = .ok ⟨wrapTwice⟩ := rfl
  obtain ⟨-, -, -, -, hfails, -⟩ := convertPayload_along hbuild ⟨"a", .string "x"⟩
  obtain ⟨-, -, -, -, hconverts, -⟩ := convertPayload_along hbuild ⟨"b", .string "x"⟩
  exact ⟨hbuild, hfails, hconverts⟩

end Upconverter
end EventSourcing
