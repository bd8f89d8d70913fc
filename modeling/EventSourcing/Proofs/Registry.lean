import EventSourcing.Upconverter
import Mathlib.Data.List.Chain
import Mathlib.Data.List.Nodup
import Mathlib.Data.List.Perm.Subperm
import Mathlib.Logic.Relation

/-!
# Which converters make an upconverter

Converters are the arrows of a graph on kinds. If no kind has two of them, each kind leads to at
most one other, and following the arrows from a kind either ends or runs into a cycle. `Ends` says
that it ends, as accessibility: a kind ends if its target does (`ends_of_target`), and a kind that
ends is on no cycle (`Ends.not_cycle`).

A walk that comes to a kind twice has gone around a cycle (`walk_error`). A walk that stops has
stopped at a kind without converter or at one that an earlier walk has cleared, so every kind on it
ends (`walk_ok`); that it could have run out of steps instead is excluded, since the kinds on a walk
are different sources. Hence the search for a cycle is right from whatever kinds it starts, in
whatever order (`findCycle_eq_none`, `findCycle_eq_some`), and `Upconverter.build` accepts the sound
registries and no others (`Upconverter.build_verdict`).
-/

namespace EventSourcing

/-- There is a converter from one kind to another. -/
def ConvertsTo (cs : List Converter) (source target : String) : Prop :=
  ∃ c ∈ cs, c.source = source ∧ c.target = target

/-- No kind comes back to itself through one or more converters. -/
def Acyclic (cs : List Converter) : Prop := ∀ kind, ¬ Relation.TransGen (ConvertsTo cs) kind kind

/-- However converters are followed from a kind, they come to an end. -/
def Ends (cs : List Converter) (kind : String) : Prop :=
  Acc (fun target source => ConvertsTo cs source target) kind

/-- A walk along converters whose last kind is one that it came through before. -/
def Closes (cs : List Converter) (kinds : List String) : Prop :=
  kinds.IsChain (ConvertsTo cs) ∧
    ∃ lead again between, kinds = lead ++ again :: (between ++ [again])

variable {cs : List Converter} {c : Converter} {kind : String} {cleared kinds path : List String}

theorem source_of_converterOf (h : converterOf cs kind = some c) : c.source = kind := by
  simpa using List.find?_some h

theorem convertsTo_of_converterOf (h : converterOf cs kind = some c) :
    ConvertsTo cs kind c.target :=
  ⟨c, List.mem_of_find?_eq_some h, source_of_converterOf h, rfl⟩

theorem mem_sources_of_converterOf (h : converterOf cs kind = some c) :
    kind ∈ cs.map (·.source) :=
  List.mem_map.2 ⟨c, List.mem_of_find?_eq_some h, source_of_converterOf h⟩

theorem not_convertsTo_of_converterOf (h : converterOf cs kind = none) (target : String) :
    ¬ ConvertsTo cs kind target := by
  rintro ⟨c, hc, hsource, -⟩
  have := List.find?_eq_none.1 h c hc
  simp [hsource] at this

/-- If no kind has two converters, the converter of a kind is the only one that leads on from it. -/
theorem target_of_convertsTo (hd : (cs.map (·.source)).Nodup) (h : converterOf cs kind = some c)
    {target : String} (ht : ConvertsTo cs kind target) : target = c.target := by
  obtain ⟨d, hmem, hsource, rfl⟩ := ht
  have hc := List.mem_of_find?_eq_some h
  rw [List.inj_on_of_nodup_map hd hmem hc (hsource.trans (source_of_converterOf h).symm)]

namespace Ends

theorem of_none (h : converterOf cs kind = none) : Ends cs kind :=
  .intro kind fun target ht => absurd ht (not_convertsTo_of_converterOf h target)

theorem of_target (hd : (cs.map (·.source)).Nodup) (h : converterOf cs kind = some c)
    (ht : Ends cs c.target) : Ends cs kind := by
  refine .intro kind fun target hto => ?_
  rw [target_of_convertsTo hd h hto]
  exact ht

/-- A kind that ends is on no cycle. -/
theorem not_cycle (h : Ends cs kind) : ¬ Relation.TransGen (ConvertsTo cs) kind kind := by
  induction h with
  | intro kind _ ih =>
    intro hcycle
    obtain ⟨next, hnext, hback⟩ := Relation.TransGen.head'_iff.1 hcycle
    exact ih next hnext (.tail' hback hnext)

end Ends

/-- If every source ends there is no cycle. -/
theorem acyclic_of_ends (h : ∀ kind ∈ cs.map (·.source), Ends cs kind) : Acyclic cs := by
  intro kind hcycle
  obtain ⟨_, ⟨c, hc, hsource, -⟩, -⟩ := Relation.TransGen.head'_iff.1 hcycle
  exact (h kind (List.mem_map.2 ⟨c, hc, hsource⟩)).not_cycle hcycle

/-- A walk that closes has gone around a cycle. -/
theorem Closes.not_acyclic (h : Closes cs kinds) : ¬ Acyclic cs := by
  obtain ⟨hchain, lead, again, between, rfl⟩ := h
  intro hacyclic
  have hcycle := (List.isChain_split.1 hchain).2
  cases between with
  | nil => exact hacyclic again (.single (List.isChain_cons_cons.1 hcycle).1)
  | cons next between =>
    obtain ⟨hnext, hrest⟩ := List.isChain_cons_cons.1 hcycle
    have hback : Relation.ReflTransGen (ConvertsTo cs) next again :=
      List.relationReflTransGen_of_exists_isChain_cons (between ++ [again]) hrest (by simp)
    exact hacyclic again (.head' hnext hback)

/-- A walk with one more kind on it. -/
theorem isChain_extend (h : (path ++ [kind]).IsChain (ConvertsTo cs))
    (hc : converterOf cs kind = some c) :
    (path ++ [kind] ++ [c.target]).IsChain (ConvertsTo cs) := by
  refine List.isChain_append.2 ⟨h, .singleton _, ?_⟩
  intro x hx y hy
  obtain rfl : kind = x := by simpa using hx
  obtain rfl : c.target = y := by simpa using hy
  exact convertsTo_of_converterOf hc

/-- A walk that comes to a kind twice closes. -/
theorem walk_error {steps : Nat} (hchain : (path ++ [kind]).IsChain (ConvertsTo cs))
    (h : walk cs cleared steps path kind = .error kinds) : Closes cs kinds := by
  induction steps generalizing path kind with
  | zero => cases h
  | succ steps ih =>
    rw [walk] at h
    split at h
    · cases h
    rename_i c hc
    split at h
    · cases h
    split at h
    · rename_i hmem
      cases h
      obtain ⟨lead, between, rfl⟩ := List.append_of_mem hmem
      refine ⟨hchain, lead, kind, between, ?_⟩
      rw [List.append_assoc, List.cons_append]
    · exact ih (isChain_extend hchain hc) h

/-- The kinds on a walk are different sources, so a walk has no more kinds than there are
converters. -/
theorem length_walk_le (hpath : path.Nodup) (hsources : path ⊆ cs.map (·.source)) :
    path.length ≤ cs.length := by
  have hle := hpath.length_le_of_subset hsources
  rwa [List.length_map] at hle

/-- **A walk that stops.**  Where the kinds that are cleared end, so do all kinds that a stopped
walk came through, and the kind at which it was. The steps suffice: a walk does not stop for want of
them. -/
theorem walk_ok (hd : (cs.map (·.source)).Nodup) (hcleared : ∀ k ∈ cleared, Ends cs k)
    {steps : Nat} (hsteps : cs.length < steps + path.length) (hpath : path.Nodup)
    (hsources : path ⊆ cs.map (·.source))
    (h : walk cs cleared steps path kind = .ok kinds) :
    Ends cs kind ∧ ∃ more, kinds = path ++ more ∧ ∀ k ∈ more, Ends cs k := by
  induction steps generalizing path kind with
  | zero =>
    have := length_walk_le hpath hsources
    omega
  | succ steps ih =>
    rw [walk] at h
    split at h
    · rename_i hnone
      cases h
      exact ⟨.of_none hnone, [], (List.append_nil _).symm, by simp⟩
    rename_i c hc
    split at h
    · rename_i hmem
      cases h
      exact ⟨hcleared kind hmem, [], (List.append_nil _).symm, by simp⟩
    split at h
    · cases h
    · rename_i hnew
      have hnodup : (path ++ [kind]).Nodup := List.nodup_append.2
        ⟨hpath, List.nodup_singleton kind, by rintro a ha b hb rfl; simp_all⟩
      have hsub : path ++ [kind] ⊆ cs.map (·.source) :=
        List.append_subset.2 ⟨hsources, by simpa using mem_sources_of_converterOf hc⟩
      have hlength : cs.length < steps + (path ++ [kind]).length := by
        rw [List.length_append, List.length_singleton]
        omega
      obtain ⟨htarget, more, rfl, hmore⟩ := ih hlength hnodup hsub h
      have hkind : Ends cs kind := .of_target hd hc htarget
      refine ⟨hkind, kind :: more, by rw [List.append_assoc, List.singleton_append], ?_⟩
      intro k hk
      rcases List.mem_cons.1 hk with rfl | hk
      · exact hkind
      · exact hmore k hk

/-- What a search finds closes. -/
theorem findCycle_eq_some {keys : List String} (h : findCycle cs cleared keys = some kinds) :
    Closes cs kinds := by
  induction keys generalizing cleared with
  | nil => cases h
  | cons start keys ih =>
    rw [findCycle] at h
    split at h
    · rename_i hwalk
      cases h
      exact walk_error (.singleton start) hwalk
    · exact ih h

/-- If a search finds nothing, the kinds that it started from end. -/
theorem findCycle_eq_none (hd : (cs.map (·.source)).Nodup) (hcleared : ∀ k ∈ cleared, Ends cs k)
    {keys : List String} (h : findCycle cs cleared keys = none) : ∀ k ∈ keys, Ends cs k := by
  induction keys generalizing cleared with
  | nil => simp
  | cons start keys ih =>
    rw [findCycle] at h
    split at h
    · cases h
    · rename_i walked hwalk
      obtain ⟨hstart, more, hwalked, hmore⟩ :=
        walk_ok hd hcleared (Nat.lt_succ_self _) List.nodup_nil (List.nil_subset _) hwalk
      rw [List.nil_append] at hwalked
      subst hwalked
      refine List.forall_mem_cons.2 ⟨hstart, ih ?_ h⟩
      intro k hk
      rcases List.mem_append.1 hk with hk | hk
      · exact hcleared k hk
      · exact hmore k hk

/-- **The search is complete.**  Started from every source, in any order, it finds nothing if and
only if there is no cycle. -/
theorem findCycle_eq_none_iff (hd : (cs.map (·.source)).Nodup) {keys : List String}
    (hkeys : keys.Perm (cs.map (·.source))) : findCycle cs [] keys = none ↔ Acyclic cs := by
  constructor
  · intro h
    have hends := findCycle_eq_none hd (by simp) h
    exact acyclic_of_ends fun kind hkind => hends kind (hkeys.mem_iff.2 hkind)
  · intro hacyclic
    cases h : findCycle cs [] keys with
    | none => rfl
    | some kinds => exact absurd hacyclic (findCycle_eq_some h).not_acyclic

/-- The first converter whose source comes earlier is found, after the sources that are known. -/
theorem repeatedSource_cases (known : List String) (cs : List Converter) :
    (repeatedSource known cs = none ∧ (cs.map (·.source)).Nodup ∧
      ∀ c ∈ cs, c.source ∉ known) ∨
    ∃ pre c post, cs = pre ++ c :: post ∧ repeatedSource known cs = some c.source ∧
      (pre.map (·.source)).Nodup ∧ (∀ d ∈ pre, d.source ∉ known) ∧
      (c.source ∈ known ∨ c.source ∈ pre.map (·.source)) := by
  induction cs generalizing known with
  | nil => exact .inl ⟨rfl, List.nodup_nil, by simp⟩
  | cons d cs ih =>
    rw [repeatedSource]
    split
    · rename_i hd
      exact .inr ⟨[], d, cs, rfl, rfl, List.nodup_nil, by simp, .inl hd⟩
    rename_i hd
    obtain ⟨hnone, hnodup, hnew⟩ | ⟨pre, c, post, rfl, hsome, hnodup, hnew, hc⟩ :=
      ih (d.source :: known)
    · simp only [List.mem_cons, not_or] at hnew
      refine .inl ⟨hnone, List.nodup_cons.2 ⟨?_, hnodup⟩,
        List.forall_mem_cons.2 ⟨hd, fun c hc => (hnew c hc).2⟩⟩
      intro hmem
      obtain ⟨c, hc, he⟩ := List.mem_map.1 hmem
      exact (hnew c hc).1 he
    · simp only [List.mem_cons, not_or] at hnew
      refine .inr ⟨d :: pre, c, post, rfl, hsome, List.nodup_cons.2 ⟨?_, hnodup⟩,
        List.forall_mem_cons.2 ⟨hd, fun e he => (hnew e he).2⟩, ?_⟩
      · intro hmem
        obtain ⟨e, he, heq⟩ := List.mem_map.1 hmem
        exact (hnew e he).1 heq
      · rw [List.map_cons, List.mem_cons]
        rcases hc with hc | hc
        · rcases List.mem_cons.1 hc with hc | hc
          · exact .inr (.inl hc)
          · exact .inl hc
        · exact .inr (.inr hc)

namespace Upconverter

/-- What `build` does where the search for a cycle starts from the sources in another order. -/
def buildVisiting (keys : List String) (cs : List Converter) : Except ConversionFault Upconverter :=
  match repeatedSource [] cs with
  | some kind => .error (.multipleConverters kind)
  | none =>
    match findCycle cs [] keys with
    | some kinds => .error (.cycle kinds)
    | none => .ok ⟨cs⟩

theorem build_eq (cs : List Converter) : build cs = buildVisiting (cs.map (·.source)) cs := rfl

/-- **The verdict on a registry.**  In whatever order the sources are visited, converters are
accepted if and only if no kind has two of them and no kind comes back to itself. A second converter
of a kind is refused first, and the first such converter is named. A cycle is refused with a walk
that goes around one. -/
theorem build_verdict (cs : List Converter) (keys : List String)
    (hkeys : keys.Perm (cs.map (·.source))) :
    build cs = buildVisiting (cs.map (·.source)) cs ∧
    (buildVisiting keys cs = .ok ⟨cs⟩ ↔ (cs.map (·.source)).Nodup ∧ Acyclic cs) ∧
    (¬ (cs.map (·.source)).Nodup → ∃ pre c post, cs = pre ++ c :: post ∧
      (pre.map (·.source)).Nodup ∧ c.source ∈ pre.map (·.source) ∧
      buildVisiting keys cs = .error (.multipleConverters c.source)) ∧
    ((cs.map (·.source)).Nodup → ¬ Acyclic cs → ∃ kinds,
      buildVisiting keys cs = .error (.cycle kinds) ∧ Closes cs kinds) := by
  refine ⟨build_eq cs, ?_⟩
  obtain ⟨hnone, hnodup, -⟩ | ⟨pre, c, post, hcs, hsome, hnodup, -, hc⟩ :=
    repeatedSource_cases [] cs
  · have hsearch := findCycle_eq_none_iff hnodup hkeys
    have hbuild : buildVisiting keys cs = match findCycle cs [] keys with
        | some kinds => .error (.cycle kinds)
        | none => .ok ⟨cs⟩ := by
      rw [buildVisiting, hnone]
    rw [hbuild]
    refine ⟨?_, fun h => absurd hnodup h, ?_⟩
    · rw [and_iff_right hnodup, ← hsearch]
      cases findCycle cs [] keys <;> simp
    · intro _ hcycle
      cases hfind : findCycle cs [] keys with
      | none => exact absurd (hsearch.1 hfind) hcycle
      | some kinds => exact ⟨kinds, rfl, findCycle_eq_some hfind⟩
  · have hmem : c.source ∈ pre.map (·.source) := hc.resolve_left List.not_mem_nil
    have hbuild : buildVisiting keys cs = .error (.multipleConverters c.source) := by
      rw [buildVisiting, hsome]
    have hrepeats : ¬ (cs.map (·.source)).Nodup := by
      rw [hcs, List.map_append, List.map_cons]
      intro h
      exact (List.nodup_append.1 h).2.2 _ hmem _ (List.mem_cons_self ..) rfl
    rw [hbuild]
    refine ⟨?_, fun _ => ⟨pre, c, post, hcs, hnodup, hmem, rfl⟩, fun h => absurd h hrepeats⟩
    constructor
    · intro h
      cases h
    · rintro ⟨h, -⟩
      exact absurd h hrepeats

/-- A converter that keeps the data. -/
def relabel (source target : String) : Converter := ⟨source, target, .ok⟩

/-- A kind that leads into a cycle of two, and a tail beside them. -/
def leadIntoCycle : List Converter :=
  [relabel "lead" "b", relabel "b" "c", relabel "c" "b", relabel "tail" "end"]

theorem build_verdict_leadIntoCycle :
    ["tail", "c", "lead", "b"].Perm (leadIntoCycle.map (·.source)) ∧
      (∃ kinds, buildVisiting ["tail", "c", "lead", "b"] leadIntoCycle = .error (.cycle kinds) ∧
        Closes leadIntoCycle kinds) ∧
      buildVisiting ["tail", "c", "lead", "b"] leadIntoCycle
        = .error (.cycle ["c", "b", "c"]) ∧
      build leadIntoCycle = .error (.cycle ["lead", "b", "c", "b"]) := by
  have hkeys : ["tail", "c", "lead", "b"].Perm (leadIntoCycle.map (·.source)) := by decide +kernel
  obtain ⟨-, -, -, hcycle⟩ := build_verdict leadIntoCycle _ hkeys
  refine ⟨hkeys, hcycle (by decide) ?_, rfl, rfl⟩
  intro hacyclic
  have hb : ConvertsTo leadIntoCycle "b" "c" := ⟨relabel "b" "c", by simp [leadIntoCycle], rfl, rfl⟩
  have hc : ConvertsTo leadIntoCycle "c" "b" := ⟨relabel "c" "b", by simp [leadIntoCycle], rfl, rfl⟩
  exact hacyclic "b" (.tail (.single hb) hc)

end Upconverter
end EventSourcing
