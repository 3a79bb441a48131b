import InkFuse.Algebra.SubopGraph

/-!
Repiping: a range of suboperators becomes a pipeline of its own. Sources and sinks of fuse
chunks are put around it, and the producer of a strong link at its start is kept.
-/

namespace InkFuse.Algebra.SubopGraph

variable {IU : Type}

def iusAt (subops : List (Suboperator IU)) (k : ℕ) : List IU := (subops[k]?.map (·.getIUs)).getD []

def sourceIUsAt (subops : List (Suboperator IU)) (k : ℕ) : List IU :=
  (subops[k]?.map (·.getSourceIUs)).getD []

/-- The suboperators of a repiped pipeline: new fuse chunk suboperators, and suboperators that
are shared with the pipeline it comes from. -/
inductive Repiped (IU : Type)
  | fuseChunkSourceDriver
  | fuseChunkSourceIUProvider (producedIU : IU)
  | shared (k : ℕ)
  | fuseChunkSink (iuToWrite : IU)
  deriving DecidableEq, Repr

namespace Repiped

/-- `none` is the loop driver IU of the new driver. -/
def getIUs (subops : List (Suboperator IU)) : Repiped IU → List (Option IU)
  | fuseChunkSourceDriver => [none]
  | fuseChunkSourceIUProvider producedIU => [some producedIU]
  | shared k => (iusAt subops k).map some
  | fuseChunkSink _ => []

def getSourceIUs (subops : List (Suboperator IU)) : Repiped IU → List (Option IU)
  | fuseChunkSourceDriver => []
  | fuseChunkSourceIUProvider _ => [none]
  | shared k => (sourceIUsAt subops k).map some
  | fuseChunkSink iuToWrite => [some iuToWrite]

/-- `none` is the IU of the new loop driver. -/
def toSuboperator (subops : List (Suboperator IU)) : Repiped IU → Option (Suboperator (Option IU))
  | fuseChunkSourceDriver => some (.loopDriver none)
  | fuseChunkSourceIUProvider producedIU => some (.fuseChunkSourceIUProvider none (some producedIU))
  | shared k => subops[k]?.map (·.rename some)
  | fuseChunkSink iuToWrite => some (.fuseChunkSink (some iuToWrite))

theorem ius_of_toSuboperator {subops : List (Suboperator IU)} {x : Repiped IU}
    {op : Suboperator (Option IU)} (h : x.toSuboperator subops = some op) :
    op.getIUs = x.getIUs subops ∧ op.getSourceIUs = x.getSourceIUs subops := by
  cases x with
  | shared k =>
    obtain ⟨op', hop', rfl⟩ := Option.map_eq_some_iff.mp h
    simp [getIUs, getSourceIUs, iusAt, sourceIUsAt, hop']
  | _ =>
    cases h
    exact ⟨rfl, rfl⟩

end Repiped

/-- `in_provided` and `in_required_ordered`; `in_required` has the members of the latter. -/
structure Requirements (IU : Type) where
  provided : List IU
  requiredOrdered : List IU
  deriving DecidableEq, Repr

variable [DecidableEq IU]

namespace Requirements

/-- The inner loop over the inputs of a suboperator. -/
def addSource (r : Requirements IU) (iu : IU) : Requirements IU :=
  if iu ∉ r.provided ∧ iu ∉ r.requiredOrdered then
    { r with requiredOrdered := r.requiredOrdered ++ [iu] }
  else
    r

def addSubop (r : Requirements IU) (subop : Suboperator IU) : Option (Requirements IU) :=
  if ∃ iu ∈ subop.getIUs, iu ∈ r.requiredOrdered then
    none
  else
    some (subop.getSourceIUs.foldl addSource { r with provided := r.provided ++ subop.getIUs })

end Requirements

namespace Pipeline

/-- The producer of the first suboperator, when it has incoming strong links. -/
def incomingStrong (p : Pipeline IU) (start : ℕ) (first : Suboperator IU) : Option (Option ℕ) :=
  if first.incomingStrongLinks then (p.incomingEdges start).head?.map some else some none

/-- The first consumer of the last suboperator, when it has outgoing strong links. -/
def outgoingStrong (p : Pipeline IU) (last : ℕ) (subop : Suboperator IU) : Option (Option ℕ) :=
  if subop.outgoingStrongLinks then (p.outgoingEdges last).head?.map some else some none

/-- What is known before the loop over the range. -/
def strongRequirements (p : Pipeline IU) (strong : Option ℕ) : Requirements IU :=
  match strong.bind (p.suboperators[·]?) with
  | some op => ⟨op.getIUs.take 1, op.getSourceIUs⟩
  | none => ⟨[], []⟩

/-- The tuple materialization has any number of inputs and keeps the first only. -/
def hackfix (first : Suboperator IU) (required : List IU) : List IU :=
  if first.isMaterializeTuple then first.getSourceIUs.take 1 else required

/-- The fuse chunk source for the inputs; pseudo IUs get no provider. -/
def fuseChunkSource (isVoid : IU → Bool) (required : List IU) : List (Repiped IU) :=
  if required = [] then
    []
  else
    .fuseChunkSourceDriver ::
      (required.filter fun iu => !isVoid iu).map .fuseChunkSourceIUProvider

def requirements (p : Pipeline IU) (r : Requirements IU) (range : List ℕ) :
    Option (Requirements IU) :=
  range.foldlM (fun r k => p.suboperators[k]?.bind r.addSubop) r

/-- `materialize` is listed in the order in which the set is iterated. -/
def repipe (p : Pipeline IU) (isVoid : IU → Bool) (start stop : ℕ) (materialize : List IU) :
    Option (List (Repiped IU)) :=
  if start = stop then
    some []
  else do
    let first ← p.suboperators[start]?
    let last ← p.suboperators[stop - 1]?
    let incoming ← p.incomingStrong start first
    let outgoing ← p.outgoingStrong (stop - 1) last
    let range := List.range' start (stop - start)
    let r ← p.requirements (p.strongRequirements incoming) range
    some (fuseChunkSource isVoid (hackfix first r.requiredOrdered) ++
      (incoming.toList ++ range ++ outgoing.toList).map .shared ++
      materialize.map .fuseChunkSink)

/-- `out_provided` of `repipeRequired` -/
def outProvided (p : Pipeline IU) (isVoid : IU → Bool) (start stop : ℕ) : List IU :=
  (List.range' start (stop - start)).flatMap fun k =>
    (iusAt p.suboperators k).filter fun iu => !isVoid iu

/-- `out_required`, each IU once. -/
def outRequired (p : Pipeline IU) (isVoid : IU → Bool) (start stop : ℕ) : List IU :=
  ((List.range' stop (p.suboperators.length - stop)).flatMap fun k =>
    (sourceIUsAt p.suboperators k).filter (· ∈ p.outProvided isVoid start stop)).eraseDups

def repipeRequired (p : Pipeline IU) (isVoid : IU → Bool) (start stop : ℕ) :
    Option (List (Repiped IU)) :=
  p.repipe isVoid start stop (p.outRequired isVoid start stop)

/-- What a suboperator without outgoing strong links provides is materialized. -/
def repipeAll (p : Pipeline IU) (isVoid : IU → Bool) (start stop : ℕ) :
    Option (List (Repiped IU)) :=
  p.repipe isVoid start stop
    ((List.range' start (stop - start)).flatMap fun k =>
      if p.suboperators[k]?.any (·.outgoingStrongLinks) then []
      else (iusAt p.suboperators k).filter fun iu => !isVoid iu).eraseDups

end Pipeline

section Specification

/-- `k` cannot be separated from `j`, which provides its first input. -/
def StronglyLinked (subops : List (Suboperator IU)) (j k : ℕ) : Prop :=
  ∃ op iu, subops[k]? = some op ∧ op.incomingStrongLinks = true ∧
    op.getSourceIUs.head? = some iu ∧ iu ∈ iusAt subops j

/-- Each IU has one provider, in front of its readers. Strong links have a suboperator with
outgoing strong links at the other end, and follow it contiguously. -/
structure WellFormed (subops : List (Suboperator IU)) : Prop where
  unique : UniqueProviders subops
  ordered : ∀ j k iu, iu ∈ iusAt subops j → iu ∈ sourceIUsAt subops k → j < k
  linked : ∀ k op, subops[k]? = some op → op.incomingStrongLinks = true →
    ∃ j a, subops[j]? = some a ∧ a.outgoingStrongLinks = true ∧ StronglyLinked subops j k
  contiguous : ∀ i j k, StronglyLinked subops j k → j < i → i < k → StronglyLinked subops j i

/-- A well-formed pipeline, except that strong links can be anywhere. -/
structure Wired (subops : List (Suboperator IU)) : Prop where
  unique : UniqueProviders subops
  ordered : ∀ j k iu, iu ∈ iusAt subops j → iu ∈ sourceIUsAt subops k → j < k
  linked : ∀ k op, subops[k]? = some op → op.incomingStrongLinks = true →
    ∃ j a, subops[j]? = some a ∧ a.outgoingStrongLinks = true ∧ StronglyLinked subops j k

omit [DecidableEq IU] in
theorem WellFormed.wired {subops : List (Suboperator IU)} (h : WellFormed subops) : Wired subops :=
  ⟨h.unique, h.ordered, h.linked⟩

def externalIUs (subops : List (Suboperator IU)) (ks : List ℕ) : List IU :=
  ((ks.flatMap (sourceIUsAt subops)).filter (· ∉ ks.flatMap (iusAt subops))).eraseDups

/-- The suboperators `ks` between a fuse chunk source for `required` and sinks. -/
def rangeLayout (isVoid : IU → Bool) (required : List IU) (ks : List ℕ) (materialize : List IU) :
    List (Repiped IU) :=
  Pipeline.fuseChunkSource isVoid required ++ ks.map .shared ++ materialize.map .fuseChunkSink

def repipedLayout (subops : List (Suboperator IU)) (isVoid : IU → Bool) (ks : List ℕ)
    (materialize : List IU) : List (Repiped IU) :=
  Pipeline.fuseChunkSource isVoid (externalIUs subops ks) ++ ks.map .shared ++
    materialize.map .fuseChunkSink

/-- Pseudo IUs only order the generated code. -/
def NonVoid (isVoid : IU → Bool) (iu : Option IU) : Prop := iu.all fun iu => !isVoid iu

/-- Every non-void input of a suboperator is among `earlier` or provided before it. -/
def Closed (subops : List (Suboperator IU)) (isVoid : IU → Bool) :
    List (Option IU) → List (Repiped IU) → Prop
  | _, [] => True
  | earlier, op :: rest =>
    (∀ iu ∈ op.getSourceIUs subops, NonVoid isVoid iu → iu ∈ earlier) ∧
      Closed subops isVoid (earlier ++ op.getIUs subops) rest

end Specification

section Dedup

theorem eraseDups_of_nodup {l : List IU} (h : l.Nodup) : l.eraseDups = l := by
  induction l with
  | nil => rfl
  | cons a l ih =>
    obtain ⟨hnot, hl⟩ := List.nodup_cons.mp h
    have hfilter : l.filter (fun b => !b == a) = l := by
      apply List.filter_eq_self.mpr
      intro b hb
      have hne : b ≠ a := by
        rintro rfl
        exact hnot hb
      simp [hne]
    rw [List.eraseDups_cons, hfilter, ih hl]

theorem nodup_eraseDups : ∀ l : List IU, l.eraseDups.Nodup
  | [] => List.nodup_nil
  | a :: l => by
    have hshorter : (l.filter fun b => !b == a).length < l.length + 1 :=
      Nat.lt_succ_of_le (List.length_filter_le ..)
    rw [List.eraseDups_cons, List.nodup_cons]
    exact ⟨by simp, nodup_eraseDups _⟩
termination_by l => l.length

theorem eraseDups_eraseDups_append (l l' : List IU) :
    (l.eraseDups ++ l').eraseDups = (l ++ l').eraseDups := by
  rw [List.eraseDups_append, List.eraseDups_append, eraseDups_of_nodup (nodup_eraseDups l)]
  simp [List.removeAll]

/-- The inner loop appends what is new, each IU once. -/
theorem foldl_addSource (sources : List IU) (r : Requirements IU) (h : r.requiredOrdered.Nodup) :
    sources.foldl .addSource r = ⟨r.provided,
      (r.requiredOrdered ++ sources.filter (· ∉ r.provided)).eraseDups⟩ := by
  induction sources generalizing r with
  | nil => simp [eraseDups_of_nodup h]
  | cons iu sources ih =>
    rw [List.foldl_cons, Requirements.addSource]
    by_cases hprovided : iu ∈ r.provided
    · rw [if_neg (by simp [hprovided]), ih r h]
      simp [hprovided]
    · by_cases hrequired : iu ∈ r.requiredOrdered
      · rw [if_neg (by simp [hrequired]), ih r h, List.eraseDups_append, List.eraseDups_append]
        simp [hprovided, hrequired, List.removeAll]
      · have hnodup : (r.requiredOrdered ++ [iu]).Nodup := by
          rw [← List.concat_eq_append]
          exact h.concat hrequired
        rw [if_pos ⟨hprovided, hrequired⟩, ih _ hnodup]
        simp [hprovided]

end Dedup

section Loop

variable {subops : List (Suboperator IU)}

omit [DecidableEq IU] in
theorem mem_iusAt {k : ℕ} {iu : IU} :
    iu ∈ iusAt subops k ↔ ∃ op, subops[k]? = some op ∧ iu ∈ op.getIUs := by
  unfold iusAt
  cases subops[k]? <;> simp

omit [DecidableEq IU] in
theorem mem_sourceIUsAt {k : ℕ} {iu : IU} :
    iu ∈ sourceIUsAt subops k ↔ ∃ op, subops[k]? = some op ∧ iu ∈ op.getSourceIUs := by
  unfold sourceIUsAt
  cases subops[k]? <;> simp

omit [DecidableEq IU] in
theorem Wired.provider_eq (h : Wired subops) {j k : ℕ} {iu : IU}
    (hj : iu ∈ iusAt subops j) (hk : iu ∈ iusAt subops k) : j = k := by
  obtain ⟨a, ha, hia⟩ := mem_iusAt.mp hj
  obtain ⟨b, hb, hib⟩ := mem_iusAt.mp hk
  exact h.unique.eq ha hb hia hib

/-- The loop over an ascending range: the assert holds, and what is not provided yet is not
provided later either. -/
theorem requirements_eq (h : Wired subops) (range : List ℕ) (hsorted : range.Pairwise (· < ·))
    (hrange : ∀ k ∈ range, k < subops.length) (r : Requirements IU)
    (hnodup : r.requiredOrdered.Nodup)
    (hfresh : ∀ iu ∈ r.requiredOrdered, ∀ k ∈ range, iu ∉ iusAt subops k) :
    (Pipeline.build subops).requirements r range =
      some ⟨r.provided ++ range.flatMap (iusAt subops), (r.requiredOrdered ++
        (range.flatMap (sourceIUsAt subops)).filter
          (· ∉ r.provided ++ range.flatMap (iusAt subops))).eraseDups⟩ := by
  induction range generalizing r with
  | nil => simp [Pipeline.requirements, eraseDups_of_nodup hnodup]
  | cons k range ih =>
    obtain ⟨hfirst, hrest⟩ := List.pairwise_cons.mp hsorted
    obtain ⟨op, hop⟩ : ∃ op, subops[k]? = some op :=
      ⟨_, List.getElem?_eq_getElem (hrange k (List.mem_cons_self ..))⟩
    have hius : iusAt subops k = op.getIUs := by simp [iusAt, hop]
    have hsources : sourceIUsAt subops k = op.getSourceIUs := by simp [sourceIUsAt, hop]
    have hassert : ¬ ∃ iu ∈ op.getIUs, iu ∈ r.requiredOrdered := by
      rintro ⟨iu, hiu, hreq⟩
      exact hfresh iu hreq k (List.mem_cons_self ..) (hius ▸ hiu)
    have hlater : ∀ iu ∈ op.getSourceIUs, ∀ j ∈ range, iu ∉ iusAt subops j := by
      intro iu hiu j hj hprovided
      have hbefore := h.ordered j k iu hprovided (hsources ▸ hiu)
      have hafter := hfirst j hj
      omega
    have hfilter : op.getSourceIUs.filter (· ∉ r.provided ++ op.getIUs) =
        op.getSourceIUs.filter
          (· ∉ r.provided ++ op.getIUs ++ range.flatMap (iusAt subops)) := by
      apply List.filter_congr
      intro iu hiu
      have hnot : iu ∉ range.flatMap (iusAt subops) := by
        rw [List.mem_flatMap]
        rintro ⟨j, hj, hmem⟩
        exact hlater iu hiu j hj hmem
      simp [hnot]
    set r' : Requirements IU := ⟨r.provided ++ op.getIUs,
      (r.requiredOrdered ++ op.getSourceIUs.filter (· ∉ r.provided ++ op.getIUs)).eraseDups⟩
      with hr'
    have hstep : r.addSubop op = some r' := by
      rw [Requirements.addSubop, if_neg hassert,
        foldl_addSource op.getSourceIUs ⟨r.provided ++ op.getIUs, r.requiredOrdered⟩ hnodup]
    have hfresh' : ∀ iu ∈ r'.requiredOrdered, ∀ j ∈ range, iu ∉ iusAt subops j := by
      intro iu hiu j hj
      rcases List.mem_append.mp (List.mem_eraseDups.mp hiu) with hiu | hiu
      · exact hfresh iu hiu j (List.mem_cons_of_mem _ hj)
      · exact hlater iu (List.mem_of_mem_filter hiu) j hj
    have hloop := ih hrest (fun j hj => hrange j (List.mem_cons_of_mem _ hj)) r'
      (nodup_eraseDups _) hfresh'
    have hcons : (Pipeline.build subops).requirements r (k :: range) =
        (Pipeline.build subops).requirements r' range := by
      simp only [Pipeline.requirements, List.foldlM_cons, build_suboperators, hop,
        Option.bind_some, hstep]
      rfl
    rw [hcons, hloop, hr']
    simp only [List.flatMap_cons, hius, hsources, List.filter_append, ← List.append_assoc,
      eraseDups_eraseDups_append, hfilter]

/-- The strong link at the start of the range resolves to the linked producer. -/
theorem incomingStrong_eq (h : Wired subops) {start : ℕ} {first : Suboperator IU}
    (hfirst : subops[start]? = some first) :
    ∃ strong, (Pipeline.build subops).incomingStrong start first = some strong ∧
      (∀ j, strong = some j ↔ StronglyLinked subops j start) ∧
      ∀ j ∈ strong, j < start ∧ ∃ a, subops[j]? = some a ∧ a.outgoingStrongLinks = true := by
  unfold Pipeline.incomingStrong
  by_cases hincoming : first.incomingStrongLinks = true
  · obtain ⟨j, a, ha, hout, hlink⟩ := h.linked start first hfirst hincoming
    have hlinked := hlink
    obtain ⟨op, iu, hop, _, hhead, hiu⟩ := hlinked
    obtain rfl := Option.some.inj (hfirst.symm.trans hop)
    obtain ⟨iu', rest, hsources⟩ := Suboperator.sources_of_incoming hincoming
    obtain rfl : iu' = iu := by simpa [hsources] using hhead
    have hlt : j < start := h.ordered j start iu' hiu
      (mem_sourceIUsAt.mpr ⟨first, hfirst, by simp [hsources]⟩)
    have hedge : ((Pipeline.build subops).incomingEdges start).head? = some j := by
      have hia : iu' ∈ a.getIUs := by simpa [iusAt, ha] using hiu
      simp only [incomingEdges_build, hfirst, hsources, List.filterMap_cons,
        h.unique.provider ha hia hlt, List.head?_cons]
    refine ⟨some j, ?_, ?_, ?_⟩
    · rw [if_pos hincoming, hedge]
      rfl
    · intro i
      constructor
      · rintro ⟨rfl⟩
        exact hlink
      · rintro ⟨op, iu, hop, _, hhead', hiu'⟩
        obtain rfl := Option.some.inj (hfirst.symm.trans hop)
        obtain rfl := Option.some.inj (hhead.symm.trans hhead')
        exact congrArg some (h.provider_eq hiu hiu')
    · rintro i ⟨rfl⟩
      exact ⟨hlt, a, ha, hout⟩
  · refine ⟨none, if_neg hincoming, fun j => ?_, by simp⟩
    apply iff_of_false (by simp)
    rintro ⟨op, iu, hop, hin, _⟩
    obtain rfl := Option.some.inj (hfirst.symm.trans hop)
    exact hincoming hin

end Loop

section Shape

variable {subops : List (Suboperator IU)} {start stop : ℕ} {strong : Option ℕ}

theorem strongRequirements_eq
    (hstrong : ∀ j ∈ strong, ∃ a, subops[j]? = some a ∧ a.outgoingStrongLinks = true) :
    (Pipeline.build subops).strongRequirements strong =
        ⟨strong.toList.flatMap (iusAt subops), strong.toList.flatMap (sourceIUsAt subops)⟩ ∧
      (strong.toList.flatMap (sourceIUsAt subops)).Nodup := by
  cases strong with
  | none => exact ⟨rfl, List.nodup_nil⟩
  | some j =>
    obtain ⟨a, ha, hout⟩ := hstrong j rfl
    obtain ⟨iu, hiu⟩ := Suboperator.ius_of_outgoing hout
    have hnodup := Suboperator.sources_of_outgoing hout
    simp [Pipeline.strongRequirements, iusAt, sourceIUsAt, ha, hiu, hnodup]

def kept (strong : Option ℕ) (start stop : ℕ) : List ℕ :=
  strong.toList ++ List.range' start (stop - start)

theorem kept_sorted (hlt : ∀ j ∈ strong, j < start) :
    (kept strong start stop).Pairwise (· < ·) := by
  refine List.pairwise_append.mpr ⟨?_, List.pairwise_lt_range', ?_⟩
  · cases strong <;> simp
  · intro j hj k hk
    exact Nat.lt_of_lt_of_le (hlt j (Option.mem_toList.mp hj)) (List.mem_range'_1.mp hk).1

/-- The loop finds the IUs that come from outside. -/
theorem requirements_kept (h : Wired subops) (hstop : stop ≤ subops.length)
    (hstrong : ∀ j ∈ strong, j < start ∧ ∃ a, subops[j]? = some a ∧
      a.outgoingStrongLinks = true) :
    (Pipeline.build subops).requirements ((Pipeline.build subops).strongRequirements strong)
        (List.range' start (stop - start)) =
      some ⟨(kept strong start stop).flatMap (iusAt subops),
        externalIUs subops (kept strong start stop)⟩ := by
  obtain ⟨hbefore, hnodup⟩ := strongRequirements_eq fun j hj => (hstrong j hj).2
  -- the inputs of the strong producer are provided in front of it
  have houtside : ∀ iu ∈ strong.toList.flatMap (sourceIUsAt subops),
      ∀ k ∈ kept strong start stop, iu ∉ iusAt subops k := by
    intro iu hiu k hk hprovided
    obtain ⟨j, hj, hsource⟩ := List.mem_flatMap.mp hiu
    have hjs := Option.mem_toList.mp hj
    have hlt := (hstrong j hjs).1
    have hkj := h.ordered k j iu hprovided hsource
    rcases List.mem_append.mp hk with hk | hk
    · rw [Option.mem_toList.mp hk] at hjs
      cases hjs
      omega
    · have hle := (List.mem_range'_1.mp hk).1
      omega
  rw [hbefore, requirements_eq h _ List.pairwise_lt_range' ?_ _ hnodup ?_]
  · have hfilter : (strong.toList.flatMap (sourceIUsAt subops)).filter
        (· ∉ (kept strong start stop).flatMap (iusAt subops)) =
          strong.toList.flatMap (sourceIUsAt subops) := by
      apply List.filter_eq_self.mpr
      intro iu hiu
      rw [decide_eq_true_iff, List.mem_flatMap]
      rintro ⟨k, hk, hprovided⟩
      exact houtside iu hiu k hk hprovided
    have hexternal : externalIUs subops (kept strong start stop) =
        (strong.toList.flatMap (sourceIUsAt subops) ++
          ((List.range' start (stop - start)).flatMap (sourceIUsAt subops)).filter
            (· ∉ (kept strong start stop).flatMap (iusAt subops))).eraseDups := by
      rw [externalIUs, ← hfilter, ← List.filter_append, ← List.flatMap_append]
      rfl
    rw [hexternal]
    simp only [kept, List.flatMap_append]
  · intro k hk
    obtain ⟨hle, hlt⟩ := List.mem_range'_1.mp hk
    omega
  · intro iu hiu k hk
    exact houtside iu hiu k (List.mem_append_right _ hk)

/-- Every range that is not empty: what is needed from outside, the suboperators, and the sinks. -/
theorem repipe_shape (h : Wired subops) (isVoid : IU → Bool) (materialize : List IU)
    (hstart : start < stop) (hstop : stop ≤ subops.length) {first last : Suboperator IU}
    (hfirst : subops[start]? = some first) (hlast : subops[stop - 1]? = some last) :
    ∃ strong, (∀ j, strong = some j ↔ StronglyLinked subops j start) ∧
      (∀ j ∈ strong, j < start) ∧
      (Pipeline.build subops).repipe isVoid start stop materialize =
        ((Pipeline.build subops).outgoingStrong (stop - 1) last).map fun outgoing =>
          rangeLayout isVoid
            (Pipeline.hackfix first (externalIUs subops (kept strong start stop)))
            (kept strong start stop ++ outgoing.toList) materialize := by
  obtain ⟨strong, hincoming, hlinked, hstrong⟩ := incomingStrong_eq h hfirst
  refine ⟨strong, hlinked, fun j hj => (hstrong j hj).1, ?_⟩
  rw [Pipeline.repipe, if_neg (Nat.ne_of_lt hstart), build_suboperators, hfirst, hlast]
  simp only [Option.bind_eq_bind, Option.bind_some, hincoming, requirements_kept h hstop hstrong]
  cases (Pipeline.build subops).outgoingStrong (stop - 1) last with
  | none => rfl
  | some outgoing => simp [kept, rangeLayout]

theorem repipe_eq (h : WellFormed subops) (isVoid : IU → Bool) (materialize : List IU)
    (hstart : start < stop) (hstop : stop ≤ subops.length)
    (hlast : ∀ last ∈ subops[stop - 1]?, last.outgoingStrongLinks = false)
    (hfirst : ∀ first ∈ subops[start]?, first.isMaterializeTuple = false) :
    ∃ strong, (∀ j, strong = some j ↔ StronglyLinked subops j start) ∧
      (∀ j ∈ strong, j < start) ∧
      (Pipeline.build subops).repipe isVoid start stop materialize =
        some (repipedLayout subops isVoid (kept strong start stop) materialize) := by
  obtain ⟨first, hfirstOp⟩ : ∃ first, subops[start]? = some first :=
    ⟨_, List.getElem?_eq_getElem (Nat.lt_of_lt_of_le hstart hstop)⟩
  obtain ⟨last, hlastOp⟩ : ∃ last, subops[stop - 1]? = some last :=
    ⟨_, List.getElem?_eq_getElem (by omega)⟩
  obtain ⟨strong, hlinked, hbefore, hrepipe⟩ :=
    repipe_shape h.wired isVoid materialize hstart hstop hfirstOp hlastOp
  have houtgoing : (Pipeline.build subops).outgoingStrong (stop - 1) last = some none := by
    rw [Pipeline.outgoingStrong, hlast last hlastOp]
    rfl
  have hplain : Pipeline.hackfix first (externalIUs subops (kept strong start stop)) =
      externalIUs subops (kept strong start stop) := by
    rw [Pipeline.hackfix, hfirst first hfirstOp]
    rfl
  refine ⟨strong, hlinked, hbefore, ?_⟩
  rw [hrepipe, houtgoing, Option.map_some, hplain, Option.toList_none, List.append_nil]
  rfl

end Shape

section Result

variable {subops : List (Suboperator IU)} {isVoid : IU → Bool} {start stop : ℕ}

omit [DecidableEq IU] in
theorem closed_append (earlier : List (Option IU)) (ops ops' : List (Repiped IU)) :
    Closed subops isVoid earlier (ops ++ ops') ↔ Closed subops isVoid earlier ops ∧
      Closed subops isVoid (earlier ++ ops.flatMap (·.getIUs subops)) ops' := by
  induction ops generalizing earlier with
  | nil => simp [Closed]
  | cons op ops ih => simp [Closed, ih, and_assoc]

omit [DecidableEq IU] in
theorem closed_fuseChunkSource (isVoid' : IU → Bool) (required : List IU) :
    Closed subops isVoid [] (Pipeline.fuseChunkSource isVoid' required) := by
  have hproviders : ∀ (ius : List IU) (earlier : List (Option IU)), none ∈ earlier →
      Closed subops isVoid earlier (ius.map .fuseChunkSourceIUProvider) := by
    intro ius
    induction ius with
    | nil => exact fun _ _ => trivial
    | cons iu ius ih =>
      intro earlier hdriver
      refine ⟨fun iu' hiu' _ => ?_, ih _ (List.mem_append_left _ hdriver)⟩
      rw [List.mem_singleton.mp hiu']
      exact hdriver
  unfold Pipeline.fuseChunkSource
  split
  · trivial
  · exact ⟨by simp [Repiped.getSourceIUs], hproviders _ _ (by simp [Repiped.getIUs])⟩

omit [DecidableEq IU] in
theorem mem_fuseChunkSource_ius {required : List IU} {iu : IU} (hiu : iu ∈ required)
    (hvoid : isVoid iu = false) :
    some iu ∈ (Pipeline.fuseChunkSource isVoid required).flatMap (·.getIUs subops) := by
  have hne : required ≠ [] := List.ne_nil_of_mem hiu
  rw [Pipeline.fuseChunkSource, if_neg hne, List.flatMap_cons]
  apply List.mem_append_right
  rw [List.mem_flatMap]
  refine ⟨.fuseChunkSourceIUProvider iu, List.mem_map.mpr ⟨iu, ?_, rfl⟩, by simp [Repiped.getIUs]⟩
  simp [hiu, hvoid]

/-- Suboperators in their order, whose inputs come from outside or from each other. -/
theorem closed_shared (h : Wired subops) (ks : List ℕ) (hsorted : ks.Pairwise (· < ·))
    (earlier : List (Option IU))
    (hprovided : ∀ k ∈ ks, ∀ iu ∈ sourceIUsAt subops k, isVoid iu = false →
      some iu ∈ earlier ∨ ∃ j ∈ ks, iu ∈ iusAt subops j) :
    Closed subops isVoid earlier (ks.map .shared) := by
  induction ks generalizing earlier with
  | nil => trivial
  | cons k ks ih =>
    obtain ⟨hfirst, hrest⟩ := List.pairwise_cons.mp hsorted
    refine ⟨?_, ih hrest _ ?_⟩
    · intro iu hiu hvoid
      obtain ⟨iu, hsource, rfl⟩ := List.mem_map.mp hiu
      rcases hprovided k (List.mem_cons_self ..) iu hsource (by simpa [NonVoid] using hvoid) with
        hearlier | ⟨j, hj, hius⟩
      · exact hearlier
      · have hlt := h.ordered j k iu hius hsource
        rcases List.mem_cons.mp hj with hj | hj
        · omega
        · have hafter := hfirst j hj
          omega
    · intro j hj iu hsource hvoid
      rcases hprovided j (List.mem_cons_of_mem _ hj) iu hsource hvoid with
        hearlier | ⟨i, hi, hius⟩
      · exact Or.inl (List.mem_append_left _ hearlier)
      · rcases List.mem_cons.mp hi with rfl | hi
        · exact Or.inl (List.mem_append_right _ (List.mem_map_of_mem hius))
        · exact Or.inr ⟨i, hi, hius⟩

omit [DecidableEq IU] in
theorem closed_sinks (materialize : List IU) (earlier : List (Option IU))
    (hprovided : ∀ iu ∈ materialize, some iu ∈ earlier) :
    Closed subops isVoid earlier (materialize.map .fuseChunkSink) := by
  induction materialize generalizing earlier with
  | nil => trivial
  | cons iu materialize ih =>
    refine ⟨fun iu' hiu' _ => ?_, ih _ fun x hx => ?_⟩
    · rw [List.mem_singleton.mp hiu']
      exact hprovided iu (List.mem_cons_self ..)
    · exact List.mem_append_left _ (hprovided x (List.mem_cons_of_mem _ hx))

omit [DecidableEq IU] in
/-- Sources for IUs that come from outside keep the providers apart. -/
theorem layout_ius_nodup (h : Wired subops) {ks : List ℕ} (hks : ks.Nodup) {required : List IU}
    (hrequired : required.Nodup) (houtside : ∀ iu ∈ required, iu ∉ ks.flatMap (iusAt subops))
    (materialize : List IU) :
    ((rangeLayout isVoid required ks materialize).flatMap fun op => op.getIUs subops).Nodup := by
  have hshared : ((ks.map Repiped.shared).flatMap fun op : Repiped IU => op.getIUs subops) =
      (ks.flatMap (iusAt subops)).map some := by
    rw [List.flatMap_map, List.map_flatMap]
    rfl
  have hsinks : ((materialize.map Repiped.fuseChunkSink).flatMap
      fun op => op.getIUs subops) = [] := by
    rw [List.flatMap_map]
    simp [Repiped.getIUs]
  have hkept : (ks.flatMap (iusAt subops)).Nodup := by
    rw [List.nodup_flatMap]
    constructor
    · intro k _
      unfold iusAt
      cases hop : subops[k]? with
      | none => exact List.nodup_nil
      | some op => exact (List.nodup_flatMap.mp h.unique).1 op (List.mem_of_getElem? hop)
    · apply hks.imp
      intro j k hne iu hj hk
      exact hne (h.provider_eq hj hk)
  have hsome : Function.Injective (some : IU → Option IU) := fun _ _ => Option.some.inj
  rw [rangeLayout, List.flatMap_append, List.flatMap_append, hshared, hsinks, List.append_nil]
  unfold Pipeline.fuseChunkSource
  split
  · exact hkept.map hsome
  · have hproviders : ((required.filter fun iu => !isVoid iu).map
        Repiped.fuseChunkSourceIUProvider).flatMap (fun op => op.getIUs subops) =
          (required.filter fun iu => !isVoid iu).map some := by
      rw [List.flatMap_map, List.map_eq_flatMap]
      rfl
    rw [List.flatMap_cons, hproviders, List.append_assoc, ← List.map_append]
    show (none :: _).Nodup
    rw [List.nodup_cons]
    refine ⟨by simp, List.Nodup.map hsome ?_⟩
    rw [List.nodup_append]
    refine ⟨hrequired.filter _, hkept, ?_⟩
    rintro iu hiu _ hkept' rfl
    exact houtside iu (List.mem_of_mem_filter hiu) hkept'

theorem notMem_of_external {ks : List ℕ} {iu : IU} (h : iu ∈ externalIUs subops ks) :
    iu ∉ ks.flatMap (iusAt subops) := by
  rw [externalIUs, List.mem_eraseDups] at h
  simpa using List.of_mem_filter h

/-- No IU of a repiped pipeline has two providers. -/
theorem repiped_ius_nodup (h : WellFormed subops) (ks : List ℕ) (hks : ks.Nodup)
    (materialize : List IU) :
    ((repipedLayout subops isVoid ks materialize).flatMap fun op => op.getIUs subops).Nodup :=
  layout_ius_nodup h.wired hks (nodup_eraseDups _) (fun _ hiu => notMem_of_external hiu) _

theorem repiped_closed (h : WellFormed subops) (ks : List ℕ) (hsorted : ks.Pairwise (· < ·))
    (materialize : List IU) (hmaterialize : ∀ iu ∈ materialize, ∃ k ∈ ks, iu ∈ iusAt subops k) :
    Closed subops isVoid [] (repipedLayout subops isVoid ks materialize) := by
  rw [repipedLayout, closed_append, closed_append]
  refine ⟨⟨closed_fuseChunkSource _ _, closed_shared h.wired ks hsorted _ ?_⟩, closed_sinks _ _ ?_⟩
  · intro k hk iu hsource hvoid
    by_cases hprovided : iu ∈ ks.flatMap (iusAt subops)
    · exact Or.inr (List.mem_flatMap.mp hprovided)
    · have hexternal : iu ∈ externalIUs subops ks := by
        rw [externalIUs, List.mem_eraseDups, List.mem_filter]
        exact ⟨List.mem_flatMap.mpr ⟨k, hk, hsource⟩, by simpa using hprovided⟩
      exact Or.inl (mem_fuseChunkSource_ius hexternal hvoid)
  · intro iu hiu
    obtain ⟨k, hk, hius⟩ := hmaterialize iu hiu
    rw [List.nil_append, List.flatMap_append]
    apply List.mem_append_right
    rw [List.mem_flatMap]
    exact ⟨.shared k, List.mem_map_of_mem hk, List.mem_map_of_mem hius⟩

omit [DecidableEq IU] in
/-- A strongly linked suboperator comes with its producer, which is in the range or linked to its
first suboperator. -/
theorem strong_link_kept (h : WellFormed subops) {strong : Option ℕ}
    (hstrong : ∀ j, strong = some j ↔ StronglyLinked subops j start) {j k : ℕ}
    (hk : k ∈ List.range' start (stop - start)) (hlink : StronglyLinked subops j k) :
    j ∈ kept strong start stop := by
  obtain ⟨hle, hlt⟩ := List.mem_range'_1.mp hk
  obtain ⟨op, iu, hop, _, hhead, hiu⟩ := id hlink
  have hjk : j < k := h.ordered j k iu hiu
    (mem_sourceIUsAt.mpr ⟨op, hop, List.mem_of_head? hhead⟩)
  by_cases hj : start ≤ j
  · exact List.mem_append_right _ (List.mem_range'_1.mpr (by omega))
  · apply List.mem_append_left
    rw [Option.mem_toList, hstrong]
    by_cases hks : k = start
    · exact hks ▸ hlink
    · exact h.contiguous start j k hlink (by omega) (by omega)

theorem mem_outProvided {iu : IU} :
    iu ∈ (Pipeline.build subops).outProvided isVoid start stop ↔
      isVoid iu = false ∧ ∃ k, start ≤ k ∧ k < stop ∧ iu ∈ iusAt subops k := by
  simp only [Pipeline.outProvided, build_suboperators, List.mem_flatMap, List.mem_filter,
    List.mem_range'_1, Bool.not_eq_true']
  constructor
  · rintro ⟨k, ⟨hle, hlt⟩, hius, hvoid⟩
    exact ⟨hvoid, k, hle, by omega, hius⟩
  · rintro ⟨hvoid, k, hle, hlt, hius⟩
    exact ⟨k, ⟨hle, by omega⟩, hius, hvoid⟩

theorem mem_outRequired {iu : IU} :
    iu ∈ (Pipeline.build subops).outRequired isVoid start stop ↔
      (isVoid iu = false ∧ ∃ k, start ≤ k ∧ k < stop ∧ iu ∈ iusAt subops k) ∧
        ∃ k, stop ≤ k ∧ iu ∈ sourceIUsAt subops k := by
  have hlt : ∀ {k}, iu ∈ sourceIUsAt subops k → k < subops.length := by
    intro k hk
    obtain ⟨op, hop, _⟩ := mem_sourceIUsAt.mp hk
    exact (List.getElem?_eq_some_iff.mp hop).1
  simp only [Pipeline.outRequired, build_suboperators, List.mem_eraseDups, List.mem_flatMap,
    List.mem_filter, List.mem_range'_1, decide_eq_true_iff, mem_outProvided]
  constructor
  · rintro ⟨k, ⟨hle, _⟩, hsource, hprovided⟩
    exact ⟨hprovided, k, hle, hsource⟩
  · rintro ⟨hprovided, k, hle, hsource⟩
    have hk := hlt hsource
    exact ⟨k, ⟨hle, by omega⟩, hsource, hprovided⟩

/-- For every range that ends where the pipeline can be cut: a repiped pipeline is the range
between sources for exactly its external inputs and one sink for every materialized IU, it is
closed, and no IU has two providers. The materialized IUs of `repipeRequired` are those that are
read behind the range. -/
theorem repipe_closed (h : WellFormed subops) (isVoid : IU → Bool) (hstart : start < stop)
    (hstop : stop ≤ subops.length)
    (hlast : ∀ last ∈ subops[stop - 1]?, last.outgoingStrongLinks = false)
    (hfirst : ∀ first ∈ subops[start]?, first.isMaterializeTuple = false) :
    (∀ materialize : List IU, materialize.Nodup →
      (∀ iu ∈ materialize, isVoid iu = false ∧ ∃ k, start ≤ k ∧ k < stop ∧ iu ∈ iusAt subops k) →
      ∃ strong repiped, (∀ j, strong = some j ↔ StronglyLinked subops j start) ∧
        (Pipeline.build subops).repipe isVoid start stop materialize = some repiped ∧
        repiped = repipedLayout subops isVoid (kept strong start stop) materialize ∧
        Closed subops isVoid [] repiped ∧
        (repiped.flatMap fun op => op.getIUs subops).Nodup ∧
        ∀ k ∈ List.range' start (stop - start), ∀ j, StronglyLinked subops j k →
          j ∈ kept strong start stop) ∧
    ((Pipeline.build subops).repipeRequired isVoid start stop = (Pipeline.build subops).repipe
        isVoid start stop ((Pipeline.build subops).outRequired isVoid start stop)) ∧
    ((Pipeline.build subops).outRequired isVoid start stop).Nodup ∧
    ∀ iu, iu ∈ (Pipeline.build subops).outRequired isVoid start stop ↔
      (isVoid iu = false ∧ ∃ k, start ≤ k ∧ k < stop ∧ iu ∈ iusAt subops k) ∧
        ∃ k, stop ≤ k ∧ iu ∈ sourceIUsAt subops k := by
  refine ⟨fun materialize _ hmaterialize => ?_, rfl, nodup_eraseDups _, fun iu => mem_outRequired⟩
  obtain ⟨strong, hlinked, hbefore, hrepipe⟩ :=
    repipe_eq h isVoid materialize hstart hstop hlast hfirst
  have hsorted : (kept strong start stop).Pairwise (· < ·) := kept_sorted hbefore
  refine ⟨strong, _, hlinked, hrepipe, rfl, ?_, ?_, ?_⟩
  · apply repiped_closed h _ hsorted
    intro iu hiu
    obtain ⟨_, k, hle, hlt, hius⟩ := hmaterialize iu hiu
    exact ⟨k, List.mem_append_right _ (List.mem_range'_1.mpr (by omega)), hius⟩
  · exact repiped_ius_nodup h _ (hsorted.imp Nat.ne_of_lt) _
  · intro k hk j hlink
    exact strong_link_kept h hlinked hk hlink

/-- A filter on the IU 0, which provides the pseudo IU 1 to the filter of the IU 2. -/
def filterPipeline : List (Suboperator ℕ) := [.columnFilterScope 0 1, .columnFilterLogic 1 2 3]

theorem filterPipeline_wellFormed : WellFormed filterPipeline := by
  have hlink : ∀ {j k}, StronglyLinked filterPipeline j k ↔ j = 0 ∧ k = 1 := by
    intro j k
    unfold StronglyLinked iusAt filterPipeline
    rcases k with _ | _ | k <;> rcases j with _ | _ | j <;>
      simp [Suboperator.incomingStrongLinks, Suboperator.getSourceIUs, Suboperator.getIUs]
  refine ⟨by unfold UniqueProviders; decide, ?_, ?_, ?_⟩
  · intro j k iu
    unfold iusAt sourceIUsAt filterPipeline
    rcases k with _ | _ | k <;> rcases j with _ | _ | j <;>
      simp [Suboperator.getSourceIUs, Suboperator.getIUs]
    all_goals omega
  · intro k op hop hincoming
    rcases k with _ | _ | k
    · cases hop
      cases hincoming
    · exact ⟨0, _, rfl, rfl, hlink.mpr ⟨rfl, rfl⟩⟩
    · cases hop
  · intro i j k hjk
    obtain ⟨rfl, rfl⟩ := hlink.mp hjk
    omega

/-- Cut behind the scope, the filter keeps it and gets both inputs from fuse chunks. -/
theorem filterPipeline_repiped :
    ∃ repiped, (Pipeline.build filterPipeline).repipe (· == 1) 1 2 [3] = some repiped ∧
      Closed filterPipeline (· == 1) [] repiped ∧
      repiped = [.fuseChunkSourceDriver, .fuseChunkSourceIUProvider 0,
        .fuseChunkSourceIUProvider 2, .shared 0, .shared 1, .fuseChunkSink 3] := by
  obtain ⟨hrepipe, _⟩ := @repipe_closed _ _ filterPipeline 1 2 filterPipeline_wellFormed (· == 1)
    (by decide) (by decide) (by rintro _ ⟨rfl⟩; rfl) (by rintro _ ⟨rfl⟩; rfl)
  obtain ⟨_, repiped, _, hres, _, hclosed, _⟩ := hrepipe [3] (by decide)
    (by rintro _ (_ | ⟨_, ⟨⟩⟩); exact ⟨rfl, 1, by decide⟩)
  refine ⟨repiped, hres, hclosed, ?_⟩
  have hrun : (Pipeline.build filterPipeline).repipe (· == 1) 1 2 [3] =
      some [.fuseChunkSourceDriver, .fuseChunkSourceIUProvider 0,
        .fuseChunkSourceIUProvider 2, .shared 0, .shared 1, .fuseChunkSink 3] := by
    decide
  exact Option.some.inj (hres.symm.trans hrun)

end Result

end InkFuse.Algebra.SubopGraph
