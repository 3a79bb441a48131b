import InkFuse.Algebra.Repipe
import Mathlib.Algebra.BigOperators.Group.Finset.Piecewise
import Mathlib.Algebra.Order.BigOperators.Group.Finset

/-!
The code generation protocol of a pipeline. The compilation context and the suboperators call
each other: opening requests inputs, a provided input is announced to the one that asked for it,
and closing goes from the sinks to the sources. The statements that they generate are left out.
-/

namespace InkFuse.Algebra.SubopGraph

inductive ProtocolEvent
  | opened (k : ℕ)
  | announced (k : ℕ)
  | consumed (k : ℕ)
  | consumedAll (k : ℕ)
  | closed (k : ℕ)
  deriving DecidableEq, Repr

/-- The state of `CompilationContext`. `requests` has at most one entry for a provider, the
requestor and the IU; `overwritten` says whether an entry was ever replaced. -/
structure CompilationContext (IU : Type) where
  computed : ℕ → Bool
  servicedRequests : ℕ → ℕ
  upstreamRequests : ℕ → ℕ
  requests : ℕ → Option (ℕ × IU)
  overwritten : Bool
  trace : List ProtocolEvent

variable {IU : Type}

namespace CompilationContext

def start : CompilationContext IU :=
  ⟨fun _ => false, fun _ => 0, fun _ => 0, fun _ => none, false, []⟩

@[simp]
def log (ctx : CompilationContext IU) (event : ProtocolEvent) : CompilationContext IU :=
  { ctx with trace := ctx.trace ++ [event] }

/-- `computed.emplace(&op)` -/
@[simp]
def announce (ctx : CompilationContext IU) (op : ℕ) : CompilationContext IU :=
  { ctx.log (.announced op) with computed := Function.update ctx.computed op true }

@[simp]
def request (ctx : CompilationContext IU) (provider op : ℕ) (iu : IU) : CompilationContext IU :=
  { ctx with
    upstreamRequests :=
      Function.update ctx.upstreamRequests provider (ctx.upstreamRequests provider + 1)
    requests := Function.update ctx.requests provider (some (op, iu))
    overwritten := ctx.overwritten || (ctx.requests provider).isSome }

/-- `requests.erase(&op)` -/
@[simp]
def erase (ctx : CompilationContext IU) (op : ℕ) : CompilationContext IU :=
  { ctx with requests := Function.update ctx.requests op none }

@[simp]
def service (ctx : CompilationContext IU) (requestor : ℕ) : CompilationContext IU :=
  { ctx with servicedRequests :=
      Function.update ctx.servicedRequests requestor (ctx.servicedRequests requestor + 1) }

/-- `--upstream_requests`, a `size_t`. -/
def release (ctx : CompilationContext IU) (producer : ℕ) : CompilationContext IU :=
  let before := ctx.upstreamRequests producer
  let after := if before = 0 then 2 ^ 64 - 1 else before - 1
  { ctx with upstreamRequests := Function.update ctx.upstreamRequests producer after }

end CompilationContext

/-- The suboperators whose `consume` announces the IU; they read a single one. -/
def Suboperator.announcesInConsume : Suboperator IU → Bool
  | tscanIUProvider .. => true
  | fuseChunkSourceIUProvider .. => true
  | copy .. => true
  | _ => false

/-- `open` and `close` are those of `Suboperator`, or of a source. Only these are modelled: filters
have their own. -/
def Suboperator.hasDefaultProtocol : Suboperator IU → Bool
  | columnFilterScope .. => false
  | columnFilterLogic .. => false
  | _ => true

namespace Pipeline

variable (p : Pipeline IU)

def isSinkAt (k : ℕ) : Bool := (iusAt p.suboperators k).isEmpty

def announcesInConsumeAt (k : ℕ) : Bool :=
  p.suboperators[k]?.any (·.announcesInConsume)

/-- `producing_no_request` -/
def producesNoRequest (k : ℕ) : Bool := !p.isSinkAt k && (p.outgoingEdges k).isEmpty

def consume (notify : ℕ → CompilationContext IU → Option (CompilationContext IU)) (op : ℕ)
    (ctx : CompilationContext IU) : Option (CompilationContext IU) :=
  if p.announcesInConsumeAt op then notify op (ctx.log (.consumed op))
  else some (ctx.log (.consumed op))

/-- `consumeAllChildren` of the requestor. -/
def consumeAllChildren (notify : ℕ → CompilationContext IU → Option (CompilationContext IU))
    (op : ℕ) (ctx : CompilationContext IU) : Option (CompilationContext IU) :=
  if p.isSinkAt op || p.announcesInConsumeAt op then some (ctx.log (.consumedAll op))
  else notify op (ctx.log (.consumedAll op))

/-- The end of `notifyIUsReady`, for a request that was removed from the map. The flag
`ct_only_vectorized` is never set, so the branch for it is left out. -/
def serve (notify : ℕ → CompilationContext IU → Option (CompilationContext IU)) (requestor : ℕ)
    (ctx : CompilationContext IU) : Option (CompilationContext IU) := do
  let ctx ← p.consume notify requestor ctx
  let ctx := ctx.service requestor
  if ctx.servicedRequests requestor = (sourceIUsAt p.suboperators requestor).length then
    p.consumeAllChildren notify requestor ctx
  else
    some ctx

/-- Fails as the assert does when nobody has requested the IUs. -/
def notifyIUsReady : ℕ → ℕ → CompilationContext IU → Option (CompilationContext IU)
  | 0, _, _ => none
  | fuel + 1, op, ctx =>
    if p.producesNoRequest op then
      some (ctx.announce op)
    else
      match ctx.requests op with
      | none => none
      | some (requestor, _) =>
        p.serve (notifyIUsReady fuel) requestor ((ctx.announce op).erase op)

/-- One step of the loop in `notifyOpClosed`. -/
def closeProducer (closeOp : ℕ → CompilationContext IU → Option (CompilationContext IU))
    (ctx : CompilationContext IU) (producer : ℕ) : Option (CompilationContext IU) :=
  if (ctx.release producer).upstreamRequests producer = 0 then
    closeOp producer (ctx.release producer)
  else
    some (ctx.release producer)

/-- The `close` of a source does not look for producers. -/
def closeOp : ℕ → ℕ → CompilationContext IU → Option (CompilationContext IU)
  | 0, _, _ => none
  | fuel + 1, op, ctx =>
    if (sourceIUsAt p.suboperators op).isEmpty then
      some (ctx.log (.closed op))
    else
      match p.incomingEdges op with
      | [] => none
      | producers => producers.foldlM (closeProducer (closeOp fuel)) (ctx.log (.closed op))

/-- What `compile` opens and closes. Suboperators whose IUs nobody reads come before the sinks. -/
def sinks : List ℕ :=
  (List.range p.suboperators.length).filter p.producesNoRequest ++
    (List.range p.suboperators.length).filter p.isSinkAt

variable [DecidableEq IU]

/-- Fails as the exceptions do when the suboperator has no producer of the IU. -/
def requestIU (openOp notify : ℕ → CompilationContext IU → Option (CompilationContext IU))
    (op : ℕ) (ctx : CompilationContext IU) (iu : IU) : Option (CompilationContext IU) :=
  match (p.incomingEdges op).find? fun provider => iu ∈ iusAt p.suboperators provider with
  | none => none
  | some provider =>
    if ctx.computed provider then notify provider (ctx.request provider op iu)
    else openOp provider (ctx.request provider op iu)

/-- The `open` of a source announces its IUs. -/
def openOp : ℕ → ℕ → CompilationContext IU → Option (CompilationContext IU)
  | 0, _, _ => none
  | fuel + 1, op, ctx =>
    match sourceIUsAt p.suboperators op with
    | [] => p.notifyIUsReady fuel op (ctx.log (.opened op))
    | sources =>
      sources.foldlM (p.requestIU (openOp fuel) (p.notifyIUsReady fuel) op) (ctx.log (.opened op))

def compile (fuel : ℕ) : Option (CompilationContext IU) := do
  let ctx ← p.sinks.foldlM (fun ctx sink => p.openOp fuel sink ctx) .start
  p.sinks.foldlM (fun ctx sink => p.closeOp fuel sink ctx) ctx

end Pipeline

section Graph

variable [DecidableEq IU]

/-- Every source IU is provided by exactly one earlier suboperator. -/
def SourcesProvided (subops : List (Suboperator IU)) : Prop :=
  ∀ k, ∀ iu ∈ sourceIUsAt subops k, ∃ j < k, iu ∈ iusAt subops j ∧
    ∀ i < k, iu ∈ iusAt subops i → i = j

variable {subops : List (Suboperator IU)}

omit [DecidableEq IU] in
theorem sourcesProvided_iff : SourcesProvided subops ↔ ∀ k < subops.length,
    ∀ iu ∈ sourceIUsAt subops k, ∃ j < k, iu ∈ iusAt subops j ∧
      ∀ i < k, iu ∈ iusAt subops i → i = j := by
  refine ⟨fun h k _ => h k, fun h k iu hiu => h k ?_ iu hiu⟩
  by_contra hge
  rw [sourceIUsAt, List.getElem?_eq_none (Nat.le_of_not_lt hge)] at hiu
  exact absurd hiu (List.not_mem_nil)

instance : Decidable (SourcesProvided subops) := decidable_of_iff _ sourcesProvided_iff.symm

/-- The pipelines whose suboperators are all modelled with their `open` and `close`. -/
structure DefaultProtocol (subops : List (Suboperator IU)) : Prop where
  provided : SourcesProvided subops
  ops : ∀ op ∈ subops, op.hasDefaultProtocol = true

theorem SourcesProvided.resolve (h : SourcesProvided subops) {k : ℕ} {iu : IU}
    (hiu : iu ∈ sourceIUsAt subops k) :
    ∃ j < k, (Pipeline.build (subops.take k)).iuProviders iu = some j ∧ iu ∈ iusAt subops j ∧
      ∀ i < k, iu ∈ iusAt subops i → i = j := by
  obtain ⟨j, hjk, hj, hunique⟩ := h k iu hiu
  obtain ⟨a, ha, hia⟩ := mem_iusAt.mp hj
  have hget : (subops.take k)[j]? = some a := by
    rw [List.getElem?_take_of_lt hjk, ha]
  obtain ⟨i, hi⟩ := Option.isSome_iff_exists.mp
    (provider_isSome ⟨a, List.mem_of_getElem? hget, hia⟩)
  obtain ⟨b, hb, hib⟩ := exists_of_provider hi
  have hik : i < k := by
    have hlt := (List.getElem?_eq_some_iff.mp hb).1
    rw [List.length_take] at hlt
    omega
  rw [List.getElem?_take_of_lt hik] at hb
  obtain rfl := hunique i hik (mem_iusAt.mpr ⟨b, hb, hib⟩)
  exact ⟨i, hjk, hi, hj, hunique⟩

/-- The producers of a suboperator are those of its inputs, in their order. -/
theorem incomingEdges_map (h : SourcesProvided subops) (k : ℕ) :
    (Pipeline.build subops).incomingEdges k = (sourceIUsAt subops k).map fun iu =>
      ((Pipeline.build (subops.take k)).iuProviders iu).getD 0 := by
  have hmap : ∀ ius : List IU, (∀ iu ∈ ius, iu ∈ sourceIUsAt subops k) →
      ius.filterMap (Pipeline.build (subops.take k)).iuProviders =
        ius.map fun iu => ((Pipeline.build (subops.take k)).iuProviders iu).getD 0 := by
    intro ius hius
    induction ius with
    | nil => rfl
    | cons iu ius ih =>
      obtain ⟨j, _, hj, _⟩ := h.resolve (hius iu (List.mem_cons_self ..))
      rw [List.filterMap_cons, hj, List.map_cons, hj,
        ih fun x hx => hius x (List.mem_cons_of_mem _ hx)]
      rfl
  rw [incomingEdges_build]
  cases hop : subops[k]? with
  | none => simp [sourceIUsAt, hop]
  | some op =>
    have hsources : sourceIUsAt subops k = op.getSourceIUs := by simp [sourceIUsAt, hop]
    rw [hsources]
    exact hmap _ fun iu hiu => hsources ▸ hiu

theorem length_incomingEdges (h : SourcesProvided subops) (k : ℕ) :
    ((Pipeline.build subops).incomingEdges k).length = (sourceIUsAt subops k).length := by
  rw [incomingEdges_map h, List.length_map]

theorem lt_of_mem_incomingEdges (h : SourcesProvided subops) {j k : ℕ}
    (hj : j ∈ (Pipeline.build subops).incomingEdges k) :
    j < k ∧ (Pipeline.build subops).isSinkAt j = false := by
  rw [incomingEdges_map h] at hj
  obtain ⟨iu, hiu, rfl⟩ := List.mem_map.mp hj
  obtain ⟨i, hik, hi, hmem, _⟩ := h.resolve hiu
  rw [hi, Option.getD_some]
  refine ⟨hik, ?_⟩
  rw [Pipeline.isSinkAt, build_suboperators, List.isEmpty_eq_false_iff]
  exact List.ne_nil_of_mem hmem

/-- `requestIU` finds the producer of the input that it is for. -/
theorem find_producer (h : SourcesProvided subops) {k i : ℕ} {iu : IU}
    (hiu : (sourceIUsAt subops k)[i]? = some iu) :
    ∃ j, ((Pipeline.build subops).incomingEdges k)[i]? = some j ∧
      (((Pipeline.build subops).incomingEdges k).find? fun provider =>
        iu ∈ iusAt (Pipeline.build subops).suboperators provider) = some j := by
  obtain ⟨j, hjk, hj, hmem, hunique⟩ := h.resolve (List.mem_of_getElem? hiu)
  have hget : ((Pipeline.build subops).incomingEdges k)[i]? = some j := by
    rw [incomingEdges_map h, List.getElem?_map, hiu, Option.map_some, hj, Option.getD_some]
  refine ⟨j, hget, ?_⟩
  rw [build_suboperators]
  cases hfind : ((Pipeline.build subops).incomingEdges k).find? fun provider =>
      decide (iu ∈ iusAt subops provider) with
  | none =>
    have hnone := List.find?_eq_none.mp hfind j (List.mem_of_getElem? hget)
    simp [hmem] at hnone
  | some provider =>
    have hprovider := List.find?_some hfind
    have hlt := (lt_of_mem_incomingEdges h (List.mem_of_find?_eq_some hfind)).1
    rw [hunique provider hlt (of_decide_eq_true hprovider)]

theorem outgoingEdges_isEmpty (j : ℕ) :
    ((Pipeline.build subops).outgoingEdges j).isEmpty = true ↔
      ∀ c, j ∉ (Pipeline.build subops).incomingEdges c := by
  rw [List.isEmpty_iff, List.eq_nil_iff_forall_not_mem]
  simp only [mem_outgoingEdges]

end Graph

section Dag

/-- What the protocol relies on: every input has its producer, which comes before. -/
structure Dag [DecidableEq IU] (p : Pipeline IU) : Prop where
  length : ∀ k, (p.incomingEdges k).length = (sourceIUsAt p.suboperators k).length
  before : ∀ j k, j ∈ p.incomingEdges k → j < k ∧ p.isSinkAt j = false
  found : ∀ (k i : ℕ) (iu : IU), (sourceIUsAt p.suboperators k)[i]? = some iu →
    ∃ j, (p.incomingEdges k)[i]? = some j ∧
      ((p.incomingEdges k).find? fun provider => iu ∈ iusAt p.suboperators provider) = some j
  readers : ∀ j, (p.outgoingEdges j).isEmpty = true ↔ ∀ c, j ∉ p.incomingEdges c
  consumers : ∀ j k, k ∈ p.outgoingEdges j ↔ j ∈ p.incomingEdges k
  sources : ∀ k < p.suboperators.length, sourceIUsAt p.suboperators k = [] →
    p.isSinkAt k = false
  consume : ∀ k, p.announcesInConsumeAt k = true →
    (p.incomingEdges k).length = 1 ∧ p.isSinkAt k = false

theorem dag_build [DecidableEq IU] {subops : List (Suboperator IU)} (h : SourcesProvided subops) :
    Dag (Pipeline.build subops) := by
  refine ⟨fun k => ?_, fun j k hj => lt_of_mem_incomingEdges h hj, fun k i iu hiu => ?_,
    outgoingEdges_isEmpty, mem_outgoingEdges subops, fun k hk hsource => ?_, fun k hk => ?_⟩
  · rw [build_suboperators]
    exact length_incomingEdges h k
  · rw [build_suboperators] at hiu
    exact find_producer h hiu
  · rw [build_suboperators] at hk hsource
    have hop := List.getElem?_eq_getElem hk
    have hsource' : subops[k].isSource = true := by
      simpa [Suboperator.isSource, sourceIUsAt, hop] using hsource
    simpa [Pipeline.isSinkAt, iusAt, hop, Suboperator.isSink] using
      Suboperator.ius_of_source hsource'
  · rw [length_incomingEdges h]
    simp only [Pipeline.announcesInConsumeAt, Pipeline.isSinkAt, build_suboperators, iusAt,
      sourceIUsAt] at hk ⊢
    cases hop : subops[k]? with
    | none => simp [hop] at hk
    | some op =>
      rw [hop, Option.any_some] at hk
      cases op with
      | tscanIUProvider driverIU producedIU => exact ⟨rfl, rfl⟩
      | fuseChunkSourceIUProvider driverIU producedIU => exact ⟨rfl, rfl⟩
      | copy copyIU produced => exact ⟨rfl, rfl⟩
      | _ => cases hk

end Dag

section Open

/-- Where a suboperator is in the protocol. An active one has `served` inputs, may wait for the
next, and knows who requested it; a late one has announced its IU within its `consume`. -/
inductive Status
  | idle
  | active (served : ℕ) (waiting : Bool) (requestor : Option ℕ)
  | late
  | finished

def Status.Done : Status → Prop
  | .late => True
  | .finished => True
  | _ => False

def requestedAt (p : Pipeline IU) (σ : ℕ → Status) (k : ℕ) : ℕ :=
  match σ k with
  | .idle => 0
  | .active served waiting _ => served + waiting.toNat
  | _ => (p.incomingEdges k).length

def LocalOk (p : Pipeline IU) (ctx : CompilationContext IU) (σ : ℕ → Status) (k : ℕ) : Prop :=
  match σ k with
  | .idle => ctx.trace.count (.opened k) = 0 ∧ ctx.trace.count (.consumedAll k) = 0 ∧
      ctx.servicedRequests k = 0 ∧ ctx.computed k = false ∧ ctx.requests k = none
  | .active served _ requestor => k < p.suboperators.length ∧
      ctx.trace.count (.opened k) = 1 ∧ ctx.trace.count (.consumedAll k) = 0 ∧
      ctx.servicedRequests k = served ∧ ctx.computed k = false ∧
      (ctx.requests k).map Prod.fst = requestor ∧ served < (p.incomingEdges k).length ∧
      ∀ i < served, ∀ j, (p.incomingEdges k)[i]? = some j → (σ j).Done
  | .late => k < p.suboperators.length ∧
      ctx.trace.count (.opened k) = 1 ∧ ctx.trace.count (.consumedAll k) = 0 ∧
      ctx.servicedRequests k + 1 = (p.incomingEdges k).length ∧ ctx.computed k = true ∧
      .announced k ∈ ctx.trace ∧ ctx.requests k = none ∧ ∀ j ∈ p.incomingEdges k, (σ j).Done
  | .finished => k < p.suboperators.length ∧
      ctx.trace.count (.opened k) = 1 ∧
      ctx.trace.count (.consumedAll k) = (if p.incomingEdges k = [] then 0 else 1) ∧
      ctx.servicedRequests k = (p.incomingEdges k).length ∧
      (p.isSinkAt k = false → ctx.computed k = true ∧ .announced k ∈ ctx.trace) ∧
      ctx.requests k = none ∧ ∀ j ∈ p.incomingEdges k, (σ j).Done

def needs (p : Pipeline IU) : ProtocolEvent → List ProtocolEvent
  | .consumedAll k => (p.incomingEdges k).map .announced
  | .closed k => (p.outgoingEdges k).map .closed
  | _ => []

def Preceded (p : Pipeline IU) (trace : List ProtocolEvent) : Prop :=
  ∀ pre e post, trace = pre ++ e :: post → ∀ d ∈ needs p e, d ∈ pre

theorem preceded_concat {p : Pipeline IU} {trace : List ProtocolEvent} {e : ProtocolEvent} :
    Preceded p (trace ++ [e]) ↔ Preceded p trace ∧ ∀ d ∈ needs p e, d ∈ trace := by
  constructor
  · intro h
    refine ⟨fun pre e' post heq => h pre e' (post ++ [e]) ?_, h trace e [] rfl⟩
    rw [heq, List.append_assoc, List.cons_append]
  · rintro ⟨h, he⟩ pre e' post heq
    rcases List.eq_nil_or_concat post with rfl | ⟨post', last, rfl⟩
    · obtain ⟨rfl, hcons⟩ := List.append_inj' heq rfl
      cases hcons
      exact he
    · rw [List.concat_eq_append, ← List.cons_append, ← List.append_assoc] at heq
      exact h pre e' post' (List.append_inj_left' heq rfl)

structure OpenInv (p : Pipeline IU) (roots : List ℕ) (ctx : CompilationContext IU)
    (σ : ℕ → Status) : Prop where
  localOk : ∀ k, LocalOk p ctx σ k
  upstream : ∀ k, ctx.upstreamRequests k = ∑ c ∈ Finset.range p.suboperators.length,
    ((p.incomingEdges c).take (requestedAt p σ c)).count k
  preceded : Preceded p ctx.trace
  kept : ctx.overwritten = false
  cause : ∀ k, σ k ≠ .idle → k ∈ roots ∨ ∃ c, k ∈ p.incomingEdges c
  notClosed : ∀ k, .closed k ∉ ctx.trace

structure SameAt (ctx ctx' : CompilationContext IU) (k : ℕ) : Prop where
  opened : ctx'.trace.count (.opened k) = ctx.trace.count (.opened k)
  consumedAll : ctx'.trace.count (.consumedAll k) = ctx.trace.count (.consumedAll k)
  serviced : ctx'.servicedRequests k = ctx.servicedRequests k
  computed : ctx'.computed k = ctx.computed k
  requests : ctx'.requests k = ctx.requests k

theorem LocalOk.frame {p : Pipeline IU} {ctx ctx' : CompilationContext IU} {σ σ' : ℕ → Status}
    {k : ℕ} (h : LocalOk p ctx σ k) (hsame : SameAt ctx ctx' k) (hstatus : σ' k = σ k)
    (hannounced : .announced k ∈ ctx.trace → .announced k ∈ ctx'.trace)
    (hdone : ∀ j, (σ j).Done → (σ' j).Done) : LocalOk p ctx' σ' k := by
  unfold LocalOk at h ⊢
  rw [hstatus, hsame.opened, hsame.consumedAll, hsame.serviced, hsame.computed, hsame.requests]
  cases hk : σ k with
  | idle => simpa [hk] using h
  | active served waiting requestor =>
    simp only [hk] at h ⊢
    obtain ⟨h1, h2, h3, h4, h5, h6, h7, h8⟩ := h
    exact ⟨h1, h2, h3, h4, h5, h6, h7, fun i hi j hj => hdone j (h8 i hi j hj)⟩
  | late =>
    simp only [hk] at h ⊢
    obtain ⟨h1, h2, h3, h4, h5, h6, h7, h8⟩ := h
    exact ⟨h1, h2, h3, h4, h5, hannounced h6, h7, fun j hj => hdone j (h8 j hj)⟩
  | finished =>
    simp only [hk] at h ⊢
    obtain ⟨h1, h2, h3, h4, h5, h6, h7⟩ := h
    exact ⟨h1, h2, h3, h4, fun hs => ⟨(h5 hs).1, hannounced (h5 hs).2⟩, h6,
      fun j hj => hdone j (h7 j hj)⟩

variable {p : Pipeline IU} {roots : List ℕ} {ctx ctx' : CompilationContext IU} {σ σ' : ℕ → Status}

/-- A step has to say what becomes of the suboperators that it touches. -/
theorem OpenInv.step (h : OpenInv p roots ctx σ) (touched : List ℕ)
    (hsame : ∀ k ∉ touched, SameAt ctx ctx' k ∧ σ' k = σ k)
    (hlocal : ∀ k ∈ touched, LocalOk p ctx' σ' k)
    (hdone : ∀ k ∈ touched, (σ k).Done → (σ' k).Done)
    (hcause : ∀ k ∈ touched, k ∈ roots ∨ ∃ c, k ∈ p.incomingEdges c)
    (htrace : ∃ events, ctx'.trace = ctx.trace ++ events ∧ ∀ k, .closed k ∉ events)
    (hupstream : ∀ k, ctx'.upstreamRequests k = ∑ c ∈ Finset.range p.suboperators.length,
      ((p.incomingEdges c).take (requestedAt p σ' c)).count k)
    (hpreceded : Preceded p ctx'.trace) (hkept : ctx'.overwritten = false) :
    OpenInv p roots ctx' σ' := by
  obtain ⟨events, htrace, hevents⟩ := htrace
  refine ⟨fun k => ?_, hupstream, hpreceded, hkept, fun k hk => ?_, fun k hk => ?_⟩
  · by_cases hmem : k ∈ touched
    · exact hlocal k hmem
    · obtain ⟨hsameAt, hstatus⟩ := hsame k hmem
      apply (h.localOk k).frame hsameAt hstatus
      · intro hannounced
        rw [htrace]
        exact List.mem_append_left _ hannounced
      · intro j hj
        by_cases hjmem : j ∈ touched
        · exact hdone j hjmem hj
        · rw [(hsame j hjmem).2]
          exact hj
  · by_cases hmem : k ∈ touched
    · exact hcause k hmem
    · rw [(hsame k hmem).2] at hk
      exact h.cause k hk
  · rw [htrace, List.mem_append] at hk
    rcases hk with hk | hk
    · exact h.notClosed k hk
    · exact hevents k hk

theorem sum_request {r i c : ℕ} (hr : r < p.suboperators.length) (hi : requestedAt p σ r = i)
    (hi' : requestedAt p σ' r = i + 1)
    (hother : ∀ d ≠ r, requestedAt p σ' d = requestedAt p σ d)
    (hc : (p.incomingEdges r)[i]? = some c) (k : ℕ) :
    (∑ d ∈ Finset.range p.suboperators.length,
      ((p.incomingEdges d).take (requestedAt p σ' d)).count k) =
    (∑ d ∈ Finset.range p.suboperators.length,
      ((p.incomingEdges d).take (requestedAt p σ d)).count k) + if c = k then 1 else 0 := by
  have hterm : ∀ d, ((p.incomingEdges d).take (requestedAt p σ' d)).count k =
      ((p.incomingEdges d).take (requestedAt p σ d)).count k +
        if d = r then (if c = k then 1 else 0) else 0 := by
    intro d
    by_cases hd : d = r
    · subst hd
      rw [hi, hi', List.take_add_one, hc, Option.toList_some, List.count_append, if_pos rfl,
        List.count_singleton]
      simp
    · rw [hother d hd, if_neg hd, Nat.add_zero]
  simp only [hterm, Finset.sum_add_distrib, Finset.sum_ite_eq', Finset.mem_range, hr, if_true]

theorem OpenInv.computed (h : OpenInv p roots ctx σ) {k : ℕ} (hk : (σ k).Done)
    (hsink : p.isSinkAt k = false) : ctx.computed k = true ∧ .announced k ∈ ctx.trace := by
  have hlocal := h.localOk k
  unfold LocalOk at hlocal
  cases hs : σ k with
  | idle => simp [hs, Status.Done] at hk
  | active served waiting requestor => simp [hs, Status.Done] at hk
  | late =>
    simp only [hs] at hlocal
    exact ⟨hlocal.2.2.2.2.1, hlocal.2.2.2.2.2.1⟩
  | finished =>
    simp only [hs] at hlocal
    exact hlocal.2.2.2.2.1 hsink

/-- No request is pending for what is done or untouched. -/
theorem OpenInv.requests_eq_none (h : OpenInv p roots ctx σ) {k : ℕ}
    (hk : σ k = .idle ∨ (σ k).Done) : ctx.requests k = none := by
  have hlocal := h.localOk k
  unfold LocalOk at hlocal
  cases hs : σ k with
  | idle =>
    simp only [hs] at hlocal
    exact hlocal.2.2.2.2
  | active served waiting requestor => simp [hs, Status.Done] at hk
  | late =>
    simp only [hs] at hlocal
    exact hlocal.2.2.2.2.2.2.1
  | finished =>
    simp only [hs] at hlocal
    exact hlocal.2.2.2.2.2.1

/-- What the state says about an active suboperator. -/
theorem OpenInv.active (h : OpenInv p roots ctx σ) {k served : ℕ} {waiting : Bool}
    {requestor : Option ℕ} (hk : σ k = .active served waiting requestor) :
    k < p.suboperators.length ∧ ctx.trace.count (.opened k) = 1 ∧
    ctx.trace.count (.consumedAll k) = 0 ∧ ctx.servicedRequests k = served ∧
    ctx.computed k = false ∧ (ctx.requests k).map Prod.fst = requestor ∧
    served < (p.incomingEdges k).length ∧
    ∀ i < served, ∀ j, (p.incomingEdges k)[i]? = some j → (σ j).Done := by
  have hlocal := h.localOk k
  unfold LocalOk at hlocal
  simpa only [hk] using hlocal

theorem done_update {r j : ℕ} {x : Status} (hr : (σ r).Done → x.Done) (hj : (σ j).Done) :
    (Function.update σ r x j).Done := by
  by_cases hjr : j = r
  · subst hjr
    rw [Function.update_self]
    exact hr hj
  · rwa [Function.update_of_ne hjr]

theorem requestedAt_update {r : ℕ} {x : Status} (hx : requestedAt p (Function.update σ r x) r =
    requestedAt p σ r) (d : ℕ) : requestedAt p (Function.update σ r x) d = requestedAt p σ d := by
  by_cases hd : d = r
  · rw [hd, hx]
  · rw [requestedAt, requestedAt, Function.update_of_ne hd]

theorem OpenInv.upstream_request (h : OpenInv p roots ctx σ) {r i c : ℕ} {q : Option ℕ}
    (hr : σ r = .active i false q) (hr' : σ' r = .active i true q)
    (hother : ∀ d ≠ r, requestedAt p σ' d = requestedAt p σ d)
    (hc : (p.incomingEdges r)[i]? = some c) (k : ℕ) :
    Function.update ctx.upstreamRequests c (ctx.upstreamRequests c + 1) k =
      ∑ d ∈ Finset.range p.suboperators.length,
        ((p.incomingEdges d).take (requestedAt p σ' d)).count k := by
  rw [sum_request (h.active hr).1 (by simp [requestedAt, hr]) (by simp [requestedAt, hr'])
    hother hc, ← h.upstream]
  by_cases hk : c = k
  · simp [hk]
  · simp [hk, Ne.symm hk]

/-- A step of one suboperator that requests nothing. -/
theorem OpenInv.move (h : OpenInv p roots ctx σ) {r : ℕ} {x : Status}
    (hsame : ∀ k ≠ r, SameAt ctx ctx' k) (hlocal : LocalOk p ctx' (Function.update σ r x) r)
    (hdone : (σ r).Done → x.Done) (hcause : r ∈ roots ∨ ∃ c, r ∈ p.incomingEdges c)
    (htrace : ∃ events, ctx'.trace = ctx.trace ++ events ∧ ∀ k, .closed k ∉ events)
    (hupstream : ctx'.upstreamRequests = ctx.upstreamRequests)
    (hrequested : requestedAt p (Function.update σ r x) r = requestedAt p σ r)
    (hpreceded : Preceded p ctx'.trace) (hkept : ctx'.overwritten = ctx.overwritten) :
    OpenInv p roots ctx' (Function.update σ r x) := by
  apply h.step [r] _ _ _ _ htrace _ hpreceded (hkept.trans h.kept)
  · intro k hk
    rw [List.mem_singleton] at hk
    exact ⟨hsame k hk, Function.update_of_ne hk ..⟩
  · intro k hk
    obtain rfl := List.mem_singleton.mp hk
    exact hlocal
  · intro k hk
    obtain rfl := List.mem_singleton.mp hk
    rw [Function.update_self]
    exact hdone
  · intro k hk
    obtain rfl := List.mem_singleton.mp hk
    exact hcause
  · intro k
    rw [hupstream, h.upstream]
    simp only [requestedAt_update hrequested]

/-- What `compile` opens itself: it waits for its inputs, or is a source. -/
theorem OpenInv.openRoot (h : OpenInv p roots ctx σ) {r : ℕ} {x : Status} (hidle : σ r = .idle)
    (hroot : r ∈ roots)
    (hctx : ctx' = ctx.log (.opened r) ∨ ctx' = (ctx.log (.opened r)).announce r)
    (hx : LocalOk p ctx' (Function.update σ r x) r)
    (hzero : requestedAt p (Function.update σ r x) r = 0) :
    OpenInv p roots ctx' (Function.update σ r x) := by
  apply h.move _ hx _ (.inl hroot)
  · rcases hctx with rfl | rfl
    · exact ⟨[.opened r], rfl, by simp⟩
    · exact ⟨[.opened r, .announced r], by simp, by simp⟩
  · rcases hctx with rfl | rfl <;> rfl
  · rw [hzero, requestedAt, hidle]
  · rcases hctx with rfl | rfl
    · exact preceded_concat.mpr ⟨h.preceded, by simp [needs]⟩
    · exact preceded_concat.mpr
        ⟨preceded_concat.mpr ⟨h.preceded, by simp [needs]⟩, by simp [needs]⟩
  · rcases hctx with rfl | rfl <;> rfl
  · intro k hk
    rcases hctx with rfl | rfl <;> constructor <;> simp [hk, Ne.symm hk]
  · rw [hidle]
    exact False.elim

/-- One of the inputs, not the last. -/
theorem OpenInv.servePartial (h : OpenInv p roots ctx σ) {r j c : ℕ} {q : Option ℕ}
    (hr : σ r = .active j true q) (hc : (p.incomingEdges r)[j]? = some c) (hdone : (σ c).Done)
    (hmore : j + 1 < (p.incomingEdges r).length) :
    OpenInv p roots ((ctx.log (.consumed r)).service r)
      (Function.update σ r (.active (j + 1) false q)) := by
  obtain ⟨h1, h2, h3, h4, h5, h6, h7, h8⟩ := h.active hr
  have hnotDone : ¬ (σ r).Done := by
    simp [hr, Status.Done]
  apply h.move _ _ (absurd · hnotDone) (h.cause r (by simp [hr]))
  · exact ⟨[.consumed r], rfl, by simp⟩
  · rfl
  · simp [requestedAt, hr]
  · exact preceded_concat.mpr ⟨h.preceded, by simp [needs]⟩
  · rfl
  · intro k hk
    constructor <;> simp [hk]
  · simp only [LocalOk, Function.update_self]
    refine ⟨h1, by simpa using h2, by simpa using h3, by simp [h4], h5, h6, hmore, ?_⟩
    intro i hi d hd
    apply done_update (absurd · hnotDone)
    rcases Nat.lt_succ_iff_lt_or_eq.mp hi with hi | rfl
    · exact h8 i hi d hd
    · rw [hc] at hd
      cases hd
      exact hdone

/-- With the last input, all producers are done. -/
theorem OpenInv.all_done (h : OpenInv p roots ctx σ) {r j c : ℕ} {w : Bool} {q : Option ℕ}
    (hr : σ r = .active j w q) (hc : (p.incomingEdges r)[j]? = some c) (hdone : (σ c).Done)
    (hlast : j + 1 = (p.incomingEdges r).length) {d : ℕ} (hd : d ∈ p.incomingEdges r) :
    (σ d).Done := by
  obtain ⟨i, hi⟩ := List.mem_iff_getElem?.mp hd
  have hlt := (List.getElem?_eq_some_iff.mp hi).1
  rcases Nat.lt_succ_iff_lt_or_eq.mp (hlast ▸ hlt) with hij | rfl
  · exact (h.active hr).2.2.2.2.2.2.2 i hij d hi
  · rw [hc] at hi
    cases hi
    exact hdone

/-- The state in which a suboperator has seen its last input. -/
def CompilationContext.lastServed (ctx : CompilationContext IU) (r : ℕ) : CompilationContext IU :=
  ((ctx.log (.consumed r)).service r).log (.consumedAll r)

/-- The last input. Except at a sink, the IUs are announced. -/
theorem OpenInv.complete (h : OpenInv p roots ctx σ) {r j c : ℕ} {q : Option ℕ}
    (hr : σ r = .active j true q) (hc : (p.incomingEdges r)[j]? = some c) (hdone : (σ c).Done)
    (hlast : j + 1 = (p.incomingEdges r).length)
    (hannounced : ∀ d ∈ p.incomingEdges r, .announced d ∈ ctx.trace)
    (hctx : p.isSinkAt r = true ∧ q = none ∧ ctx' = ctx.lastServed r ∨
      q = none ∧ ctx' = (ctx.lastServed r).announce r ∨
      ctx' = ((ctx.lastServed r).announce r).erase r) :
    OpenInv p roots ctx' (Function.update σ r .finished) := by
  obtain ⟨h1, h2, h3, h4, h5, h6, h7, h8⟩ := h.active hr
  have hne : p.incomingEdges r ≠ [] := List.ne_nil_of_mem (List.mem_of_getElem? hc)
  have hdone' : ∀ d ∈ p.incomingEdges r, (Function.update σ r .finished d).Done :=
    fun d hd => done_update (fun _ => trivial) (h.all_done hr hc hdone hlast hd)
  have hpreceded : Preceded p (ctx.lastServed r).trace := by
    apply preceded_concat.mpr ⟨preceded_concat.mpr ⟨h.preceded, by simp [needs]⟩, _⟩
    intro e he
    obtain ⟨d, hd, rfl⟩ := List.mem_map.mp he
    exact List.mem_append_left _ (hannounced d hd)
  have hfinal : Status.Done .finished := trivial
  apply h.move _ _ (fun _ => hfinal) (h.cause r (by simp [hr]))
  · rcases hctx with ⟨_, _, rfl⟩ | ⟨_, rfl⟩ | rfl
    · exact ⟨[.consumed r, .consumedAll r], by simp [CompilationContext.lastServed], by simp⟩
    · exact ⟨[.consumed r, .consumedAll r, .announced r],
        by simp [CompilationContext.lastServed], by simp⟩
    · exact ⟨[.consumed r, .consumedAll r, .announced r],
        by simp [CompilationContext.lastServed], by simp⟩
  · rcases hctx with ⟨_, _, rfl⟩ | ⟨_, rfl⟩ | rfl <;> rfl
  · simp [requestedAt, hr, hlast]
  · rcases hctx with ⟨_, _, rfl⟩ | ⟨_, rfl⟩ | rfl
    · exact hpreceded
    · exact preceded_concat.mpr ⟨hpreceded, by simp [needs]⟩
    · exact preceded_concat.mpr ⟨hpreceded, by simp [needs]⟩
  · rcases hctx with ⟨_, _, rfl⟩ | ⟨_, rfl⟩ | rfl <;> rfl
  · intro k hk
    rcases hctx with ⟨_, _, rfl⟩ | ⟨_, rfl⟩ | rfl <;> constructor <;>
      simp [CompilationContext.lastServed, hk, Ne.symm hk]
  · simp only [LocalOk, Function.update_self, if_neg hne]
    rcases hctx with ⟨hsink, hq, rfl⟩ | ⟨hq, rfl⟩ | rfl
    · refine ⟨h1, ?_, ?_, ?_, fun hs => ?_, ?_, hdone'⟩
      · simpa [CompilationContext.lastServed] using h2
      · simpa [CompilationContext.lastServed] using h3
      · simpa [CompilationContext.lastServed, h4] using hlast
      · rw [hsink] at hs
        cases hs
      · simpa [CompilationContext.lastServed, hq] using h6
    · refine ⟨h1, ?_, ?_, ?_, fun hs => ?_, ?_, hdone'⟩
      · simpa [CompilationContext.lastServed] using h2
      · simpa [CompilationContext.lastServed] using h3
      · simpa [CompilationContext.lastServed, h4] using hlast
      · simp [CompilationContext.lastServed]
      · simpa [CompilationContext.lastServed, hq] using h6
    · refine ⟨h1, ?_, ?_, ?_, fun hs => ?_, ?_, hdone'⟩
      · simpa [CompilationContext.lastServed] using h2
      · simpa [CompilationContext.lastServed] using h3
      · simpa [CompilationContext.lastServed, h4] using hlast
      · simp [CompilationContext.lastServed]
      · simp

/-- What announces its IU in `consume` does so before the request counts as served. -/
theorem OpenInv.announceEarly (h : OpenInv p roots ctx σ) {r j c : ℕ} {q : Option ℕ}
    (hr : σ r = .active j true q) (hc : (p.incomingEdges r)[j]? = some c) (hdone : (σ c).Done)
    (hlast : j + 1 = (p.incomingEdges r).length)
    (hctx : q = none ∧ ctx' = (ctx.log (.consumed r)).announce r ∨
      ctx' = ((ctx.log (.consumed r)).announce r).erase r) :
    OpenInv p roots ctx' (Function.update σ r .late) := by
  obtain ⟨h1, h2, h3, h4, h5, h6, h7, h8⟩ := h.active hr
  have hdone' : ∀ d ∈ p.incomingEdges r, (Function.update σ r .late d).Done :=
    fun d hd => done_update (fun _ => trivial) (h.all_done hr hc hdone hlast hd)
  have hpreceded : Preceded p (ctx.trace ++ [.consumed r] ++ [.announced r]) :=
    preceded_concat.mpr ⟨preceded_concat.mpr ⟨h.preceded, by simp [needs]⟩, by simp [needs]⟩
  have hfinal : Status.Done .late := trivial
  apply h.move _ _ (fun _ => hfinal) (h.cause r (by simp [hr]))
  · rcases hctx with ⟨_, rfl⟩ | rfl <;> exact ⟨[.consumed r, .announced r], by simp, by simp⟩
  · rcases hctx with ⟨_, rfl⟩ | rfl <;> rfl
  · simp [requestedAt, hr, hlast]
  · rcases hctx with ⟨_, rfl⟩ | rfl <;> exact hpreceded
  · rcases hctx with ⟨_, rfl⟩ | rfl <;> rfl
  · intro k hk
    rcases hctx with ⟨_, rfl⟩ | rfl <;> constructor <;> simp [hk]
  · simp only [LocalOk, Function.update_self]
    rcases hctx with ⟨hq, rfl⟩ | rfl
    · refine ⟨h1, ?_, ?_, ?_, ?_, ?_, ?_, hdone'⟩
      · simpa using h2
      · simpa using h3
      · simpa [h4] using hlast
      · simp
      · simp
      · simpa [hq] using h6
    · refine ⟨h1, ?_, ?_, ?_, ?_, ?_, ?_, hdone'⟩
      · simpa using h2
      · simpa using h3
      · simpa [h4] using hlast
      · simp
      · simp
      · simp

theorem OpenInv.completeLate (h : OpenInv p roots ctx σ) {r : ℕ} (hr : σ r = .late)
    (hne : p.incomingEdges r ≠ [])
    (hannounced : ∀ d ∈ p.incomingEdges r, .announced d ∈ ctx.trace) :
    OpenInv p roots ((ctx.service r).log (.consumedAll r)) (Function.update σ r .finished) := by
  have hlocal := h.localOk r
  simp only [LocalOk, hr] at hlocal
  obtain ⟨h1, h2, h3, h4, h5, h6, h7, h8⟩ := hlocal
  have hfinal : Status.Done .finished := trivial
  apply h.move _ _ (fun _ => hfinal) (h.cause r (by simp [hr]))
  · exact ⟨[.consumedAll r], rfl, by simp⟩
  · rfl
  · simp [requestedAt, hr]
  · apply preceded_concat.mpr ⟨h.preceded, _⟩
    intro e he
    obtain ⟨d, hd, rfl⟩ := List.mem_map.mp he
    exact hannounced d hd
  · rfl
  · intro k hk
    constructor <;> simp [hk, Ne.symm hk]
  · simp only [LocalOk, Function.update_self, if_neg hne]
    refine ⟨h1, ?_, ?_, ?_, fun _ => ⟨h5, ?_⟩, h7,
      fun d hd => done_update (fun _ => hfinal) (h8 d hd)⟩
    · simpa using h2
    · simpa using h3
    · simpa using h4
    · simpa using h6

variable [DecidableEq IU]

/-- The input comes from what was computed before. -/
theorem OpenInv.ask (h : OpenInv p roots ctx σ) (hp : Dag p) {r i c : ℕ} {q : Option ℕ} {iu : IU}
    (hr : σ r = .active i false q) (hc : (p.incomingEdges r)[i]? = some c) (hdone : (σ c).Done) :
    OpenInv p roots (((ctx.request c r iu).announce c).erase c)
      (Function.update σ r (.active i true q)) := by
  have hmem := List.mem_of_getElem? hc
  obtain ⟨hlt, hsink⟩ := hp.before c r hmem
  obtain ⟨h1, h2, h3, h4, h5, h6, h7, h8⟩ := h.active hr
  have hne : r ≠ c := Nat.ne_of_gt hlt
  have hnone := h.requests_eq_none (.inr hdone)
  have hcomputed := (h.computed hdone hsink).1
  have hnotDone : ¬ (σ r).Done := by
    simp [hr, Status.Done]
  apply h.step [r]
  · intro k hk
    rw [List.mem_singleton] at hk
    refine ⟨?_, Function.update_of_ne hk ..⟩
    by_cases hkc : k = c
    · constructor <;> simp [hkc, hcomputed, hnone]
    · constructor <;> simp [hkc]
  · intro k hk
    obtain rfl := List.mem_singleton.mp hk
    simp only [LocalOk, Function.update_self]
    refine ⟨h1, by simpa using h2, by simpa using h3, h4, by simpa [hne] using h5,
      by simpa [hne] using h6, h7, fun j hj d hd => ?_⟩
    exact done_update (absurd · hnotDone) (h8 j hj d hd)
  · intro k hk
    obtain rfl := List.mem_singleton.mp hk
    exact fun hk => absurd hk hnotDone
  · intro k hk
    obtain rfl := List.mem_singleton.mp hk
    exact h.cause k (by simp [hr])
  · exact ⟨[.announced c], rfl, by simp⟩
  · apply h.upstream_request hr (Function.update_self ..) _ hc
    intro d hd
    rw [requestedAt, requestedAt, Function.update_of_ne hd]
  · show Preceded p (ctx.trace ++ [.announced c])
    exact preceded_concat.mpr ⟨h.preceded, by simp [needs]⟩
  · simpa [hnone] using h.kept

/-- The input comes from a suboperator that is opened for it. A source is ready at once. -/
theorem OpenInv.descend (h : OpenInv p roots ctx σ) (hp : Dag p) {r i c : ℕ} {q : Option ℕ}
    (iu : IU) {x : Status} (hr : σ r = .active i false q) (hc : (p.incomingEdges r)[i]? = some c)
    (hidle : σ c = .idle)
    (hctx : ctx' = (ctx.request c r iu).log (.opened c) ∨
      ctx' = (((ctx.request c r iu).log (.opened c)).announce c).erase c)
    (hx : LocalOk p ctx' (Function.update (Function.update σ r (.active i true q)) c x) c)
    (hzero : requestedAt p (Function.update (Function.update σ r (.active i true q)) c x) c = 0) :
    OpenInv p roots ctx' (Function.update (Function.update σ r (.active i true q)) c x) := by
  have hmem := List.mem_of_getElem? hc
  have hne : r ≠ c := Nat.ne_of_gt (hp.before c r hmem).1
  have hnone := h.requests_eq_none (.inl hidle)
  obtain ⟨h1, h2, h3, h4, h5, h6, h7, h8⟩ := h.active hr
  have hnotDone : ¬ (σ r).Done := by
    simp [hr, Status.Done]
  have hnotDone' : ¬ (Function.update σ r (.active i true q) c).Done := by
    simp [hne.symm, hidle, Status.Done]
  apply h.step [r, c]
  · intro k hk
    obtain ⟨hkr, hkc⟩ : k ≠ r ∧ k ≠ c := by simpa using hk
    refine ⟨?_, by rw [Function.update_of_ne hkc, Function.update_of_ne hkr]⟩
    rcases hctx with rfl | rfl <;> constructor <;> simp [hkc, Ne.symm hkc]
  · intro k hk
    rw [List.mem_pair] at hk
    rcases hk with rfl | rfl
    · simp only [LocalOk, Function.update_of_ne hne, Function.update_self]
      have hdone : ∀ j < i, ∀ d, (p.incomingEdges k)[j]? = some d →
          (Function.update (Function.update σ k (.active i true q)) c x d).Done := by
        intro j hj d hd
        apply done_update (absurd · hnotDone')
        exact done_update (absurd · hnotDone) (h8 j hj d hd)
      rcases hctx with rfl | rfl
      · refine ⟨h1, ?_, ?_, h4, ?_, ?_, h7, hdone⟩ <;> simp [hne, hne.symm, h2, h3, h5, h6]
      · refine ⟨h1, ?_, ?_, h4, ?_, ?_, h7, hdone⟩ <;> simp [hne, hne.symm, h2, h3, h5, h6]
    · exact hx
  · intro k hk
    rw [List.mem_pair] at hk
    rcases hk with rfl | rfl
    · exact fun hk => absurd hk hnotDone
    · rw [hidle]
      exact False.elim
  · intro k hk
    rw [List.mem_pair] at hk
    rcases hk with rfl | rfl
    · exact h.cause k (by simp [hr])
    · exact .inr ⟨r, hmem⟩
  · rcases hctx with rfl | rfl
    · exact ⟨[.opened c], rfl, by simp⟩
    · exact ⟨[.opened c, .announced c], by simp, by simp⟩
  · have hupstream : ctx'.upstreamRequests =
        Function.update ctx.upstreamRequests c (ctx.upstreamRequests c + 1) := by
      rcases hctx with rfl | rfl <;> rfl
    rw [hupstream]
    apply h.upstream_request hr (by simp [hne]) _ hc
    intro d hd
    by_cases hdc : d = c
    · rw [hdc, hzero, requestedAt, hidle]
    · rw [requestedAt, requestedAt, Function.update_of_ne hdc, Function.update_of_ne hd]
  · rcases hctx with rfl | rfl
    · exact preceded_concat.mpr ⟨h.preceded, by simp [needs]⟩
    · exact preceded_concat.mpr
        ⟨preceded_concat.mpr ⟨h.preceded, by simp [needs]⟩, by simp [needs]⟩
  · rcases hctx with rfl | rfl <;> simpa [hnone] using h.kept

end Open

section Stack

/-- The suboperators that are open, with the inputs that they were served. Each is what the one
below it waits for; the lowest is read by nobody. -/
def Chain (p : Pipeline IU) (σ : ℕ → Status) : Bool → List (ℕ × ℕ) → Prop
  | _, [] => True
  | waiting, (r, j) :: below =>
    σ r = .active j waiting (below.head?.map Prod.fst) ∧
    (∀ q ∈ below.head?, (p.incomingEdges q.1)[q.2]? = some r) ∧
    (below = [] → ∀ c, r ∉ p.incomingEdges c) ∧ Chain p σ true below

structure StackOk (p : Pipeline IU) (σ : ℕ → Status) (waiting : Bool) (stack : List (ℕ × ℕ)) :
    Prop where
  chain : Chain p σ waiting stack
  complete : ∀ k j w q, σ k = .active j w q → k ∈ stack.map Prod.fst

def pop (p : Pipeline IU) : List (ℕ × ℕ) → List (ℕ × ℕ)
  | [] => []
  | (r, j) :: below =>
    if j + 1 < (p.incomingEdges r).length then (r, j + 1) :: below else pop p below

structure Later (σ σ' : ℕ → Status) : Prop where
  done : ∀ k, (σ k).Done → σ' k = σ k
  opened : ∀ k, σ k ≠ .idle → σ' k ≠ .idle
  late : ∀ k, σ' k = .late → σ k = .late

variable {p : Pipeline IU} {roots : List ℕ} {ctx ctx' : CompilationContext IU}
variable {σ σ' σ'' : ℕ → Status} {waiting : Bool} {below stack : List (ℕ × ℕ)} {r j c : ℕ}

theorem Later.trans (h : Later σ σ') (h' : Later σ' σ'') : Later σ σ'' := by
  refine ⟨fun k hk => ?_, fun k hk => h'.opened k (h.opened k hk),
    fun k hk => h.late k (h'.late k hk)⟩
  have hsame := h.done k hk
  rw [← hsame] at hk ⊢
  exact h'.done k hk

theorem later_update {x : Status} (hdone : ¬ (σ r).Done) (hidle : x ≠ .idle) (hlate : x ≠ .late) :
    Later σ (Function.update σ r x) := by
  refine ⟨fun k hk => ?_, fun k hk => ?_, fun k hk => ?_⟩
  · apply Function.update_of_ne
    rintro rfl
    exact hdone hk
  · by_cases hkr : k = r
    · rw [hkr, Function.update_self]
      exact hidle
    · rwa [Function.update_of_ne hkr]
  · by_cases hkr : k = r
    · rw [hkr, Function.update_self] at hk
      exact absurd hk hlate
    · rwa [Function.update_of_ne hkr] at hk

theorem Chain.congr (h : Chain p σ waiting stack) (hsame : ∀ q ∈ stack, σ' q.1 = σ q.1) :
    Chain p σ' waiting stack := by
  induction stack generalizing waiting with
  | nil => trivial
  | cons top below ih =>
    obtain ⟨hstatus, hread, hroot, hbelow⟩ := h
    refine ⟨?_, hread, hroot, ih hbelow fun q hq => hsame q (List.mem_cons_of_mem _ hq)⟩
    rw [hsame top (List.mem_cons_self ..), hstatus]

/-- Who is lower in the stack comes later in the pipeline. -/
theorem Chain.lt [DecidableEq IU] (hp : Dag p) (h : Chain p σ waiting ((r, j) :: below)) :
    ∀ q ∈ below, r < q.1 := by
  induction below generalizing waiting r j with
  | nil => simp
  | cons next below ih =>
    obtain ⟨_, hread, _, hbelow⟩ := h
    have hlt := (hp.before r next.1 (List.mem_of_getElem? (hread next rfl))).1
    intro q hq
    rcases List.mem_cons.mp hq with rfl | hq
    · exact hlt
    · exact Nat.lt_trans hlt (ih hbelow q hq)

theorem StackOk.update_of_not_mem {x : Status} (h : StackOk p σ waiting stack)
    (hr : r ∉ stack.map Prod.fst) (hx : x.Done) :
    StackOk p (Function.update σ r x) waiting stack := by
  refine ⟨h.chain.congr fun q hq => ?_, fun k i w q hk => ?_⟩
  · apply Function.update_of_ne
    rintro rfl
    exact hr (List.mem_map_of_mem hq)
  · by_cases hkr : k = r
    · rw [hkr, Function.update_self] at hk
      rw [hk] at hx
      exact hx.elim
    · rw [Function.update_of_ne hkr] at hk
      exact h.complete k i w q hk

/-- The call succeeds and leaves this stack, with nobody waiting. -/
def Resumes (p : Pipeline IU) (roots : List ℕ) (σ : ℕ → Status) (stack : List (ℕ × ℕ))
    (result : Option (CompilationContext IU)) : Prop :=
  ∃ ctx' σ', result = some ctx' ∧ OpenInv p roots ctx' σ' ∧ StackOk p σ' false stack ∧ Later σ σ'

theorem Resumes.later {result : Option (CompilationContext IU)}
    (h : Resumes p roots σ' stack result) (hlater : Later σ σ') :
    Resumes p roots σ stack result := by
  obtain ⟨ctx', σ'', hresult, hinv, hstack, hlater'⟩ := h
  exact ⟨ctx', σ'', hresult, hinv, hstack, hlater.trans hlater'⟩

theorem StackOk.nil (h : StackOk p σ waiting []) : StackOk p σ false [] := ⟨trivial, h.complete⟩

variable [DecidableEq IU]

theorem Chain.not_mem (hp : Dag p) (h : Chain p σ waiting ((r, j) :: below)) :
    r ∉ below.map Prod.fst := by
  intro hmem
  obtain ⟨q, hq, rfl⟩ := List.mem_map.mp hmem
  exact Nat.lt_irrefl _ (h.lt hp q hq)

/-- The top is done. -/
theorem StackOk.tail (hp : Dag p) {x : Status} (h : StackOk p σ waiting ((r, j) :: below))
    (hx : x.Done) : StackOk p (Function.update σ r x) true below := by
  have hnot := h.chain.not_mem hp
  refine ⟨h.chain.2.2.2.congr fun q hq => ?_, fun k i w q hk => ?_⟩
  · apply Function.update_of_ne
    rintro rfl
    exact hnot (List.mem_map_of_mem hq)
  · by_cases hkr : k = r
    · rw [hkr, Function.update_self] at hk
      rw [hk] at hx
      exact hx.elim
    · rw [Function.update_of_ne hkr] at hk
      have hmem := h.complete k i w q hk
      rw [List.map_cons, List.mem_cons] at hmem
      exact hmem.resolve_left hkr

/-- Only the top changes. -/
theorem StackOk.top (hp : Dag p) {i : ℕ} {w : Bool} (h : StackOk p σ waiting ((r, j) :: below)) :
    StackOk p (Function.update σ r (.active i w (below.head?.map Prod.fst))) w
      ((r, i) :: below) := by
  have hnot := h.chain.not_mem hp
  obtain ⟨_, hread, hroot, hbelow⟩ := h.chain
  refine ⟨⟨Function.update_self .., hread, hroot, hbelow.congr fun q hq => ?_⟩,
    fun k i' w' q hk => ?_⟩
  · apply Function.update_of_ne
    rintro rfl
    exact hnot (List.mem_map_of_mem hq)
  · by_cases hkr : k = r
    · rw [hkr]
      exact List.mem_cons_self ..
    · rw [Function.update_of_ne hkr] at hk
      exact h.complete k i' w' q hk

/-- What the top asks for comes on the stack. -/
theorem StackOk.push (hp : Dag p) (h : StackOk p σ true ((r, j) :: below))
    (hc : (p.incomingEdges r)[j]? = some c) :
    StackOk p (Function.update σ c (.active 0 false (some r))) false
      ((c, 0) :: (r, j) :: below) := by
  have hlt := (hp.before c r (List.mem_of_getElem? hc)).1
  have hne : ∀ q ∈ (r, j) :: below, q.1 ≠ c := by
    intro q hq
    rcases List.mem_cons.mp hq with rfl | hq
    · exact Nat.ne_of_gt hlt
    · exact Nat.ne_of_gt (Nat.lt_trans hlt (h.chain.lt hp q hq))
  refine ⟨⟨Function.update_self .., fun q hq => ?_, fun hnil => ?_, h.chain.congr fun q hq => ?_⟩,
    fun k i w q hk => ?_⟩
  · cases hq
    exact hc
  · cases hnil
  · exact Function.update_of_ne (hne q hq) ..
  · by_cases hkc : k = c
    · rw [hkc]
      exact List.mem_cons_self ..
    · rw [Function.update_of_ne hkc] at hk
      exact List.mem_cons_of_mem _ (h.complete k i w q hk)

/-- Where the IUs of the top are announced. -/
theorem notify_root (hp : Dag p) (hroot : ∀ c, r ∉ p.incomingEdges c)
    (hsink : p.isSinkAt r = false) (fuel : ℕ) :
    p.notifyIUsReady (fuel + 1) r ctx = some (ctx.announce r) := by
  have hnone : p.producesNoRequest r = true := by
    rw [Pipeline.producesNoRequest, hsink, (hp.readers r).mpr hroot]
    rfl
  rw [Pipeline.notifyIUsReady, if_pos hnone]

theorem notify_requested (hp : Dag p) {q : ℕ} (hread : r ∈ p.incomingEdges c)
    (hrequest : (ctx.requests r).map Prod.fst = some q) (fuel : ℕ) :
    p.notifyIUsReady (fuel + 1) r ctx =
      p.serve (p.notifyIUsReady fuel) q ((ctx.announce r).erase r) := by
  have hsome : p.producesNoRequest r = false := by
    rw [Pipeline.producesNoRequest, Bool.and_eq_false_iff]
    right
    rw [← Bool.not_eq_true, hp.readers r]
    exact fun hroot => hroot c hread
  obtain ⟨⟨q', iu⟩, hget, rfl⟩ := Option.map_eq_some_iff.mp hrequest
  rw [Pipeline.notifyIUsReady, hsome, hget]
  rfl

theorem OpenInv.announced_of_stack (hp : Dag p) (h : OpenInv p roots ctx σ) {w : Bool}
    {q : Option ℕ}
    (hr : σ r = .active j w q) (hc : (p.incomingEdges r)[j]? = some c) (hdone : (σ c).Done)
    (hlast : j + 1 = (p.incomingEdges r).length) :
    ∀ d ∈ p.incomingEdges r, .announced d ∈ ctx.trace := fun d hd =>
  (h.computed (h.all_done hr hc hdone hlast hd) (hp.before d r hd).2).2

def announcedBy (below : List (ℕ × ℕ)) (ctx : CompilationContext IU) (r : ℕ) :
    CompilationContext IU :=
  match below with
  | [] => ctx.announce r
  | _ :: _ => (ctx.announce r).erase r

omit [DecidableEq IU] in
theorem mem_pop {k : ℕ} (h : k ∈ (pop p stack).map Prod.fst) : k ∈ stack.map Prod.fst := by
  induction stack with
  | nil => exact h
  | cons top below ih =>
    rw [pop] at h
    split at h
    · simpa using h
    · exact List.mem_cons_of_mem _ (ih h)

/-- The top is served, if what it announces reaches those below it. -/
theorem serve_of_notify (hp : Dag p) {fuel : ℕ} (h : OpenInv p roots ctx σ)
    (hstack : StackOk p σ true ((r, j) :: below))
    (hc : (p.incomingEdges r)[j]? = some c) (hdone : (σ c).Done)
    (hnotify : p.isSinkAt r = false → ∀ (x : Status) (ctx0 : CompilationContext IU), x.Done →
      ctx0.requests r = ctx.requests r →
      OpenInv p roots (announcedBy below ctx0 r) (Function.update σ r x) →
      Resumes p roots (Function.update σ r x) (pop p below) (p.notifyIUsReady fuel r ctx0)) :
    Resumes p roots σ (pop p ((r, j) :: below)) (p.serve (p.notifyIUsReady fuel) r ctx) := by
  obtain ⟨hr, hread, hroot, hbelow⟩ := hstack.chain
  have hserviced := (h.active hr).2.2.2.1
  have hlt := (h.active hr).2.2.2.2.2.2.1
  have hnotDone : ¬ (σ r).Done := by
    simp [hr, Status.Done]
  have hnot := hstack.chain.not_mem hp
  rw [pop]
  by_cases hcons : p.announcesInConsumeAt r = true
  · obtain ⟨hlen, hsink⟩ := hp.consume r hcons
    have hlast : j + 1 = (p.incomingEdges r).length := by
      omega
    have hearly : OpenInv p roots (announcedBy below (ctx.log (.consumed r)) r)
        (Function.update σ r .late) := by
      apply h.announceEarly hr hc hdone hlast
      cases below with
      | nil => exact .inl ⟨rfl, rfl⟩
      | cons next below => exact .inr rfl
    obtain ⟨ctx', σ', hresult, hinv, hstack', hlater⟩ :=
      hnotify hsink .late (ctx.log (.consumed r)) trivial rfl hearly
    have hlate : σ' r = .late := by
      rw [hlater.done r (by simp [Status.Done]), Function.update_self]
    have hlocal := hinv.localOk r
    simp only [LocalOk, hlate] at hlocal
    obtain ⟨-, -, -, hserviced', -, -, -, hdone'⟩ := hlocal
    rw [if_neg (by omega)]
    refine ⟨_, _, ?_, hinv.completeLate hlate (List.ne_nil_of_length_pos (by omega))
      fun d hd => (hinv.computed (hdone' d hd) (hp.before d r hd).2).2,
      hstack'.update_of_not_mem (fun hmem => hnot (mem_pop hmem)) trivial, ?_⟩
    · have hcount : (ctx'.service r).servicedRequests r =
          (sourceIUsAt p.suboperators r).length := by
        rw [← hp.length r, ← hserviced']
        simp
      simp only [Pipeline.serve, Pipeline.consume, Pipeline.consumeAllChildren, hcons, if_true,
        hresult, Option.bind_eq_bind, Option.bind_some, hcount, Bool.or_true]
    · refine ⟨fun k hk => ?_, fun k hk => ?_, fun k hk => ?_⟩
      · have hkr : k ≠ r := fun hkr => hnotDone (hkr ▸ hk)
        have hsame : Function.update σ r .late k = σ k := Function.update_of_ne hkr ..
        rw [Function.update_of_ne hkr, hlater.done k (by rwa [hsame]), hsame]
      · by_cases hkr : k = r
        · simp [hkr]
        · rw [Function.update_of_ne hkr]
          apply hlater.opened
          rwa [Function.update_of_ne hkr]
      · by_cases hkr : k = r
        · simp [hkr] at hk
        · rw [Function.update_of_ne hkr] at hk
          have hk' := hlater.late k hk
          rwa [Function.update_of_ne hkr] at hk'
  · have hconsume : p.consume (p.notifyIUsReady fuel) r ctx = some (ctx.log (.consumed r)) := by
      rw [Pipeline.consume, if_neg hcons]
    have hcount : ((ctx.log (.consumed r)).service r).servicedRequests r = j + 1 := by
      simp [hserviced]
    by_cases hmore : j + 1 < (p.incomingEdges r).length
    · rw [if_pos hmore]
      refine ⟨_, _, ?_, h.servePartial hr hc hdone hmore, hstack.top hp,
        later_update hnotDone (by simp) (by simp)⟩
      rw [Pipeline.serve, hconsume]
      simp only [Option.bind_eq_bind, Option.bind_some, hcount, ← hp.length r]
      rw [if_neg (Nat.ne_of_lt hmore)]
    · rw [if_neg hmore]
      have hlast : j + 1 = (p.incomingEdges r).length := by
        omega
      have hannounced := h.announced_of_stack hp hr hc hdone hlast
      have hserve : p.serve (p.notifyIUsReady fuel) r ctx =
          if p.isSinkAt r = true then some (ctx.lastServed r)
          else p.notifyIUsReady fuel r (ctx.lastServed r) := by
        rw [Pipeline.serve, hconsume]
        simp only [Option.bind_eq_bind, Option.bind_some, hcount, hlast, hp.length r,
          Pipeline.consumeAllChildren, hcons, Bool.or_false]
        rfl
      have hlater : Later σ (Function.update σ r .finished) :=
        later_update hnotDone (by simp) (by simp)
      rw [hserve]
      split
      · next hsink =>
        have hnil : below = [] := by
          cases below with
          | nil => rfl
          | cons next below =>
            have hmem := List.mem_of_getElem? (hread next rfl)
            rw [(hp.before r next.1 hmem).2] at hsink
            cases hsink
        subst hnil
        exact ⟨_, _, rfl, h.complete hr hc hdone hlast hannounced (.inl ⟨hsink, rfl, rfl⟩),
          (hstack.tail hp (x := .finished) trivial).nil, hlater⟩
      · next hsink =>
        apply (hnotify (by simpa using hsink) .finished
          (ctx.lastServed r) trivial rfl _).later hlater
        apply h.complete hr hc hdone hlast hannounced
        cases below with
        | nil => exact .inr (.inl ⟨rfl, rfl⟩)
        | cons next below => exact .inr (.inr rfl)

/-- Serving the top of the stack serves everyone for whom it was the last input. -/
theorem serve_spec (hp : Dag p) (fuel : ℕ) (hfuel : below.length < fuel)
    (h : OpenInv p roots ctx σ) (hstack : StackOk p σ true ((r, j) :: below))
    (hc : (p.incomingEdges r)[j]? = some c) (hdone : (σ c).Done) :
    Resumes p roots σ (pop p ((r, j) :: below)) (p.serve (p.notifyIUsReady fuel) r ctx) := by
  induction below generalizing fuel r j c ctx σ with
  | nil =>
    obtain ⟨fuel, rfl⟩ : ∃ f, fuel = f + 1 := ⟨fuel - 1, by omega⟩
    apply serve_of_notify hp h hstack hc hdone
    intro hsink x ctx0 hx _ hinv
    rw [notify_root hp (hstack.chain.2.2.1 rfl) hsink]
    exact ⟨_, _, rfl, hinv, (hstack.tail hp hx).nil, fun _ _ => rfl, fun _ hk => hk, fun _ hk => hk⟩
  | cons next below ih =>
    obtain ⟨fuel, rfl⟩ : ∃ f, fuel = f + 1 := ⟨fuel - 1, by omega⟩
    apply serve_of_notify hp h hstack hc hdone
    intro _ x ctx0 hx hrequest hinv
    have hread := hstack.chain.2.1 next rfl
    rw [notify_requested hp (List.mem_of_getElem? hread)
      (by rw [hrequest, (h.active hstack.chain.1).2.2.2.2.2.1]; rfl)]
    apply ih fuel (Nat.lt_of_succ_lt_succ hfuel) hinv (hstack.tail hp hx) hread
    rwa [Function.update_self]

omit [DecidableEq IU] in
theorem OpenInv.idle (h : OpenInv p roots ctx σ) {k : ℕ} (hk : σ k = .idle) :
    ctx.trace.count (.opened k) = 0 ∧ ctx.trace.count (.consumedAll k) = 0 ∧
    ctx.servicedRequests k = 0 ∧ ctx.computed k = false ∧ ctx.requests k = none := by
  have hlocal := h.localOk k
  unfold LocalOk at hlocal
  simpa only [hk] using hlocal

/-- Opening a suboperator for the one on top of the stack, which then has its input. -/
def OpensFor (p : Pipeline IU) (roots : List ℕ) (c : ℕ) : Prop :=
  ∀ (fuel r j : ℕ) (below : List (ℕ × ℕ)) (iu : IU) (ctx : CompilationContext IU) (σ : ℕ → Status),
    2 * c + below.length + 4 ≤ fuel → OpenInv p roots ctx σ →
    StackOk p σ false ((r, j) :: below) → (p.incomingEdges r)[j]? = some c → σ c = .idle →
    Resumes p roots σ (pop p ((r, j) :: below)) (p.openOp fuel c (ctx.request c r iu))

theorem provider_idle_or_done (hp : Dag p) (hstack : StackOk p σ waiting ((r, j) :: below))
    (hc : (p.incomingEdges r)[j]? = some c) : σ c = .idle ∨ (σ c).Done := by
  cases hs : σ c with
  | idle => exact .inl rfl
  | active served w q =>
    have hlt := (hp.before c r (List.mem_of_getElem? hc)).1
    obtain ⟨top, htop, htopc⟩ := List.mem_map.mp (hstack.complete c served w q hs)
    rcases List.mem_cons.mp htop with rfl | htop
    · exact absurd htopc (Nat.ne_of_gt hlt)
    · have hgt := hstack.chain.lt hp top htop
      omega
  | late => exact .inr trivial
  | finished => exact .inr trivial

/-- One input of the top of the stack. -/
theorem requestIU_spec (hp : Dag p) {fuel : ℕ} {iu : IU} (hfuel : 2 * r + below.length + 2 ≤ fuel)
    (hopen : ∀ c < r, OpensFor p roots c) (h : OpenInv p roots ctx σ)
    (hstack : StackOk p σ false ((r, j) :: below))
    (hiu : (sourceIUsAt p.suboperators r)[j]? = some iu) :
    Resumes p roots σ (pop p ((r, j) :: below))
      (p.requestIU (p.openOp fuel) (p.notifyIUsReady fuel) r ctx iu) := by
  obtain ⟨c, hc, hfind⟩ := hp.found r j iu hiu
  obtain ⟨hlt, hsink⟩ := hp.before c r (List.mem_of_getElem? hc)
  have hr := hstack.chain.1
  rw [Pipeline.requestIU, hfind]
  simp only
  rcases provider_idle_or_done hp hstack hc with hidle | hdone
  · rw [(h.idle hidle).2.2.2.1]
    exact hopen c hlt fuel r j below iu ctx σ (by omega) h hstack hc hidle
  · rw [(h.computed hdone hsink).1, if_pos rfl]
    obtain ⟨fuel, rfl⟩ : ∃ f, fuel = f + 1 := ⟨fuel - 1, by omega⟩
    rw [notify_requested hp (List.mem_of_getElem? hc) (q := r) (by simp)]
    have hnotDone : ¬ (σ r).Done := by
      simp [hr, Status.Done]
    apply (serve_spec hp fuel (by omega) (h.ask hp hr hc hdone) (hstack.top hp) hc _).later
      (later_update hnotDone (by simp) (by simp))
    exact done_update (absurd · hnotDone) hdone

/-- All inputs of the top of the stack, from the one that it has come to. -/
theorem inputs_spec (hp : Dag p) (below : List (ℕ × ℕ)) (fuel : ℕ)
    (hfuel : 2 * r + below.length + 2 ≤ fuel)
    (hopen : ∀ c < r, OpensFor p roots c) (rest : List IU)
    (hrest : (sourceIUsAt p.suboperators r).drop j = rest) (h : OpenInv p roots ctx σ)
    (hstack : StackOk p σ false ((r, j) :: below)) :
    Resumes p roots σ (pop p below)
      (rest.foldlM (p.requestIU (p.openOp fuel) (p.notifyIUsReady fuel) r) ctx) := by
  induction rest generalizing j ctx σ with
  | nil =>
    have hlt := (h.active hstack.chain.1).2.2.2.2.2.2.1
    rw [hp.length r, ← Nat.not_le, ← List.drop_eq_nil_iff] at hlt
    exact absurd hrest hlt
  | cons iu rest ih =>
    have hiu : (sourceIUsAt p.suboperators r)[j]? = some iu := by
      have hget := congrArg (·[0]?) hrest
      simpa using hget
    obtain ⟨ctx', σ', hresult, hinv, hstack', hlater⟩ :=
      requestIU_spec hp hfuel hopen h hstack hiu
    have hrest' : (sourceIUsAt p.suboperators r).drop (j + 1) = rest := by
      rw [← List.tail_drop, hrest, List.tail_cons]
    rw [List.foldlM_cons, hresult, Option.bind_eq_bind, Option.bind_some]
    rw [pop] at hstack'
    split at hstack'
    · exact (ih hrest' hinv hstack').later hlater
    · next hlast =>
      rw [hp.length r, Nat.not_lt, ← List.drop_eq_nil_iff] at hlast
      rw [← hrest', hlast]
      exact ⟨ctx', σ', rfl, hinv, hstack', hlater⟩

theorem opensFor (hp : Dag p) (c : ℕ) : OpensFor p roots c := by
  induction c using Nat.strong_induction_on with
  | _ c ih =>
    intro fuel r j below iu ctx σ hfuel h hstack hc hidle
    obtain ⟨fuel, rfl⟩ : ∃ f, fuel = f + 2 := ⟨fuel - 2, by omega⟩
    have hmem := List.mem_of_getElem? hc
    obtain ⟨hlt, hsink⟩ := hp.before c r hmem
    obtain ⟨hopened, hconsumed, hserviced, hcomputed, hrequests⟩ := h.idle hidle
    have hr := hstack.chain.1
    have hcn : c < p.suboperators.length := Nat.lt_trans hlt (h.active hr).1
    have hnotDone : ¬ (σ r).Done := by
      simp [hr, Status.Done]
    have hidle' : ¬ (Function.update σ r
        (.active j true (below.head?.map Prod.fst)) c).Done := by
      simp [Nat.ne_of_lt hlt, hidle, Status.Done]
    have hlater : Later σ (Function.update σ r (.active j true (below.head?.map Prod.fst))) :=
      later_update hnotDone (by simp) (by simp)
    have hnot : c ∉ ((r, j) :: below).map Prod.fst := by
      intro hmem
      obtain ⟨top, htop, rfl⟩ := List.mem_map.mp hmem
      rcases List.mem_cons.mp htop with rfl | htop
      · exact Nat.lt_irrefl _ hlt
      · exact Nat.lt_asymm hlt (hstack.chain.lt hp top htop)
    rw [Pipeline.openOp]
    have hlength := hp.length c
    cases hsources : sourceIUsAt p.suboperators c with
    | nil =>
      rw [hsources, List.length_nil, List.length_eq_zero_iff] at hlength
      simp only
      rw [notify_requested hp hmem (q := r) (by simp)]
      have hinv := h.descend hp iu (x := .finished) hr hc hidle (.inr rfl)
        (by simp [LocalOk, hlength, hcn, hopened, hconsumed, hserviced])
        (by simp [requestedAt, hlength])
      apply (serve_spec hp fuel (by omega) hinv
        ((hstack.top hp).update_of_not_mem hnot trivial) hc (by simp [Status.Done])).later
      exact hlater.trans (later_update hidle' (by simp) (by simp))
    | cons iu' rest =>
      have hpos : 0 < (p.incomingEdges c).length := by
        rw [hlength, hsources]
        exact Nat.succ_pos _
      simp only
      have hinv := h.descend hp iu (x := .active 0 false (some r)) hr hc hidle (.inl rfl)
        (by simp [LocalOk, hpos, hcn, hopened, hconsumed, hserviced, hcomputed])
        (by simp [requestedAt])
      have hresumes := inputs_spec hp ((r, j) :: below) (fuel + 1)
        (by rw [List.length_cons]; omega) (fun d hd => ih d hd) (iu' :: rest)
        (by rw [List.drop_zero, hsources]) hinv ((hstack.top hp).push hp hc)
      exact hresumes.later (hlater.trans (later_update hidle' (by simp) (by simp)))

/-- Opening what nobody reads. -/
theorem openRoot_spec (hp : Dag p) (fuel : ℕ) (hfuel : 2 * r + 3 ≤ fuel)
    (h : OpenInv p roots ctx σ) (hstack : StackOk p σ false []) (hidle : σ r = .idle)
    (hmem : r ∈ roots) (hr : r < p.suboperators.length) (hroot : ∀ c, r ∉ p.incomingEdges c) :
    ∃ x, x ≠ .idle ∧ Later σ (Function.update σ r x) ∧
      Resumes p roots (Function.update σ r x) [] (p.openOp fuel r ctx) := by
  obtain ⟨fuel, rfl⟩ : ∃ f, fuel = f + 2 := ⟨fuel - 2, by omega⟩
  obtain ⟨hopened, hconsumed, hserviced, hcomputed, hrequests⟩ := h.idle hidle
  have hnotDone : ¬ (σ r).Done := by
    simp [hidle, Status.Done]
  have hlength := hp.length r
  rw [Pipeline.openOp]
  cases hsources : sourceIUsAt p.suboperators r with
  | nil =>
    rw [hsources, List.length_nil, List.length_eq_zero_iff] at hlength
    simp only
    refine ⟨.finished, by simp, later_update hnotDone (by simp) (by simp), ?_⟩
    rw [notify_root hp hroot (hp.sources r hr hsources)]
    have hinv := h.openRoot (x := .finished) hidle hmem (.inr rfl)
      (by simp [LocalOk, hlength, hr, hopened, hconsumed, hserviced, hrequests])
      (by simp [requestedAt, hlength])
    exact ⟨_, _, rfl, hinv, hstack.update_of_not_mem (by simp) trivial,
      fun _ _ => rfl, fun _ hk => hk, fun _ hk => hk⟩
  | cons iu rest =>
    have hpos : 0 < (p.incomingEdges r).length := by
      rw [hlength, hsources]
      exact Nat.succ_pos _
    simp only
    refine ⟨.active 0 false none, by simp, later_update hnotDone (by simp) (by simp), ?_⟩
    have hinv := h.openRoot (x := .active 0 false none) hidle hmem (.inl rfl)
      (by simp [LocalOk, hpos, hr, hopened, hconsumed, hserviced, hcomputed, hrequests])
      (by simp [requestedAt])
    apply inputs_spec hp [] (fuel + 1) (by rw [List.length_nil]; omega)
      (fun c _ => opensFor hp c) (iu :: rest) (by rw [List.drop_zero, hsources]) hinv
    refine ⟨⟨Function.update_self .., by simp, fun _ => hroot, trivial⟩, fun k i w q hk => ?_⟩
    by_cases hkr : k = r
    · simp [hkr]
    · rw [Function.update_of_ne hkr] at hk
      exact absurd (hstack.complete k i w q hk) (by simp)

omit [DecidableEq IU] in
theorem OpenInv.mono (h : OpenInv p roots ctx σ) {roots' : List ℕ}
    (hsub : ∀ k ∈ roots, k ∈ roots') :
    OpenInv p roots' ctx σ :=
  ⟨h.localOk, h.upstream, h.preceded, h.kept, fun k hk => (h.cause k hk).imp_left (hsub k),
    h.notClosed⟩

/-- Opening what nobody reads, one after the other. -/
theorem openAll_spec (hp : Dag p) (fuel : ℕ) (hfuel : 2 * p.suboperators.length + 3 ≤ fuel)
    (todo : List ℕ) (hnodup : todo.Nodup) (hnew : ∀ k ∈ todo, k ∉ roots)
    (htodo : ∀ k ∈ todo, k < p.suboperators.length ∧ ∀ c, k ∉ p.incomingEdges c)
    (h : OpenInv p roots ctx σ) (hstack : StackOk p σ false []) :
    ∃ ctx' σ', todo.foldlM (fun ctx sink => p.openOp fuel sink ctx) ctx = some ctx' ∧
      OpenInv p (roots ++ todo) ctx' σ' ∧ StackOk p σ' false [] ∧ Later σ σ' ∧
      ∀ k ∈ todo, σ' k ≠ .idle := by
  induction todo generalizing roots ctx σ with
  | nil =>
    rw [List.append_nil]
    exact ⟨ctx, σ, rfl, h, hstack, ⟨fun _ _ => rfl, fun _ hk => hk, fun _ hk => hk⟩, by simp⟩
  | cons r todo ih =>
    obtain ⟨hr, hroot⟩ := htodo r (List.mem_cons_self ..)
    have hidle : σ r = .idle := by
      by_contra hne
      rcases h.cause r hne with hmem | ⟨c, hread⟩
      · exact hnew r (List.mem_cons_self ..) hmem
      · exact hroot c hread
    obtain ⟨x, hx, hlater, ctx', σ', hresult, hinv, hstack', hlater'⟩ :=
      openRoot_spec hp fuel (by omega)
        (h.mono fun k hk => List.mem_append_left [r] hk) hstack hidle (by simp) hr hroot
    obtain ⟨hnot, hnodup'⟩ := List.nodup_cons.mp hnodup
    obtain ⟨ctx'', σ'', hresult', hinv', hstack'', hlater'', hopened⟩ :=
      ih hnodup' (fun k hk => by
        simp only [List.mem_append, List.mem_singleton, not_or]
        exact ⟨hnew k (List.mem_cons_of_mem _ hk), fun hkr => hnot (hkr ▸ hk)⟩)
        (fun k hk => htodo k (List.mem_cons_of_mem _ hk)) hinv hstack'
    refine ⟨ctx'', σ'', ?_, ?_, hstack'', (hlater.trans hlater').trans hlater'', ?_⟩
    · rw [List.foldlM_cons, hresult]
      exact hresult'
    · rwa [List.append_assoc] at hinv'
    · intro k hk
      rcases List.mem_cons.mp hk with rfl | hk
      · apply hlater''.opened
        apply hlater'.opened
        rwa [Function.update_self]
      · exact hopened k hk

end Stack

section Close

variable {p : Pipeline IU} {opened ctx ctx' : CompilationContext IU} {proc proc' : ℕ → ℕ} {c : ℕ}

/-- What holds while suboperators are closed. Of its producers, `c` has released the first
`proc c`. -/
structure CloseInv (p : Pipeline IU) (opened ctx : CompilationContext IU) (proc : ℕ → ℕ) :
    Prop where
  events : ∀ e, (∀ k, e ≠ .closed k) → ctx.trace.count e = opened.trace.count e
  kept : ctx.overwritten = false
  preceded : Preceded p ctx.trace
  upstream : ∀ k, ctx.upstreamRequests k = ∑ c ∈ Finset.range p.suboperators.length,
    ((p.incomingEdges c).drop (proc c)).count k
  once : ∀ k, ctx.trace.count (.closed k) ≤ 1
  fresh : ∀ k, .closed k ∉ ctx.trace → proc k = 0

/-- What is read is closed when nobody needs it any more. -/
def Balanced (p : Pipeline IU) (ctx : CompilationContext IU) (k : ℕ) : Prop :=
  (∃ c, k ∈ p.incomingEdges c) → (.closed k ∈ ctx.trace ↔ ctx.upstreamRequests k = 0)

def Settled (p : Pipeline IU) (ctx : CompilationContext IU) (proc : ℕ → ℕ) (bound : ℕ) : Prop :=
  ∀ k < bound, .closed k ∈ ctx.trace → proc k = (p.incomingEdges k).length

structure CloseFrame (p : Pipeline IU) (ctx ctx' : CompilationContext IU) (proc proc' : ℕ → ℕ)
    (c : ℕ) : Prop where
  kept : ∀ k, .closed k ∈ ctx.trace → .closed k ∈ ctx'.trace
  above : ∀ k > c, proc' k = proc k ∧ (.closed k ∈ ctx'.trace → .closed k ∈ ctx.trace)
  news : ∀ k, .closed k ∈ ctx'.trace → .closed k ∈ ctx.trace ∨ k = c ∨ ∃ d, k ∈ p.incomingEdges d

def Closes (p : Pipeline IU) (opened ctx : CompilationContext IU) (proc : ℕ → ℕ) (c : ℕ)
    (result : Option (CompilationContext IU)) : Prop :=
  ∃ ctx' proc', result = some ctx' ∧ CloseInv p opened ctx' proc' ∧ (∀ k, Balanced p ctx' k) ∧
    .closed c ∈ ctx'.trace ∧ Settled p ctx' proc' (c + 1) ∧ CloseFrame p ctx ctx' proc proc' c

theorem sum_release {i j : ℕ} (hc : c < p.suboperators.length) (hi : proc c = i)
    (hj : (p.incomingEdges c)[i]? = some j) (k : ℕ) :
    (∑ d ∈ Finset.range p.suboperators.length, ((p.incomingEdges d).drop (proc d)).count k) =
    (∑ d ∈ Finset.range p.suboperators.length,
      ((p.incomingEdges d).drop (Function.update proc c (i + 1) d)).count k) +
      if j = k then 1 else 0 := by
  have hterm : ∀ d, ((p.incomingEdges d).drop (proc d)).count k =
      ((p.incomingEdges d).drop (Function.update proc c (i + 1) d)).count k +
        if d = c then (if j = k then 1 else 0) else 0 := by
    intro d
    by_cases hd : d = c
    · subst hd
      obtain ⟨hlt, rfl⟩ := List.getElem?_eq_some_iff.mp hj
      rw [hi, Function.update_self, if_pos rfl, List.drop_eq_getElem_cons hlt, List.count_cons]
      simp
    · rw [Function.update_of_ne hd, if_neg hd, Nat.add_zero]
  simp only [hterm, Finset.sum_add_distrib, Finset.sum_ite_eq', Finset.mem_range, hc, if_true]

/-- What `c` still has to release counts. -/
theorem CloseInv.upstream_pos (h : CloseInv p opened ctx proc) {i j : ℕ}
    (hc : c < p.suboperators.length) (hi : proc c = i) (hj : (p.incomingEdges c)[i]? = some j) :
    0 < ctx.upstreamRequests j := by
  rw [h.upstream, sum_release hc hi hj, if_pos rfl]
  exact Nat.succ_pos _

theorem CloseInv.release (h : CloseInv p opened ctx proc) {i j : ℕ}
    (hc : c < p.suboperators.length) (hclosed : .closed c ∈ ctx.trace) (hi : proc c = i)
    (hj : (p.incomingEdges c)[i]? = some j) :
    CloseInv p opened (ctx.release j) (Function.update proc c (i + 1)) ∧
    ∀ k, (ctx.release j).upstreamRequests k = ctx.upstreamRequests k - if j = k then 1 else 0 := by
  have hpos := h.upstream_pos hc hi hj
  have hrelease : ∀ k, (ctx.release j).upstreamRequests k =
      ctx.upstreamRequests k - if j = k then 1 else 0 := by
    intro k
    simp only [CompilationContext.release, if_neg (Nat.ne_of_gt hpos)]
    by_cases hk : k = j
    · simp [hk]
    · simp [hk, Ne.symm hk]
  refine ⟨⟨h.events, h.kept, h.preceded, fun k => ?_, h.once, fun k hk => ?_⟩, hrelease⟩
  · rw [hrelease, h.upstream, sum_release hc hi hj, Nat.add_sub_cancel]
  · have hkc : k ≠ c := by
      rintro rfl
      exact hk hclosed
    rw [Function.update_of_ne hkc]
    exact h.fresh k hk

/-- Who reads a suboperator that nobody needs any more is closed. -/
theorem CloseInv.closed_of_upstream (h : CloseInv p opened ctx proc) {k : ℕ}
    (hzero : ctx.upstreamRequests k = 0) (hc : c < p.suboperators.length)
    (hread : k ∈ p.incomingEdges c) : .closed c ∈ ctx.trace := by
  rw [h.upstream, Finset.sum_eq_zero_iff] at hzero
  have hcount := hzero c (Finset.mem_range.mpr hc)
  by_contra hnot
  rw [h.fresh c hnot, List.drop_zero, List.count_eq_zero] at hcount
  exact hcount hread

theorem CloseInv.close (h : CloseInv p opened ctx proc) (hnew : .closed c ∉ ctx.trace)
    (hreaders : ∀ d, c ∈ p.incomingEdges d → .closed d ∈ ctx.trace)
    (hout : ∀ d, d ∈ p.outgoingEdges c ↔ c ∈ p.incomingEdges d) :
    CloseInv p opened (ctx.log (.closed c)) proc := by
  refine ⟨fun e he => ?_, h.kept, ?_, h.upstream, fun k => ?_, fun k hk => ?_⟩
  · have hne : ProtocolEvent.closed c ≠ e := (he c).symm
    simpa [hne] using h.events e he
  · apply preceded_concat.mpr ⟨h.preceded, _⟩
    intro e he
    obtain ⟨d, hd, rfl⟩ := List.mem_map.mp he
    exact hreaders d ((hout d).mp hd)
  · by_cases hk : k = c
    · subst hk
      simp [List.count_eq_zero.mpr hnew]
    · simpa [Ne.symm hk] using h.once k
  · apply h.fresh
    simp only [CompilationContext.log, List.mem_append, not_or] at hk
    exact hk.1

theorem CloseFrame.trans {ctx'' : CompilationContext IU} {proc'' : ℕ → ℕ}
    (h : CloseFrame p ctx ctx' proc proc' c) (h' : CloseFrame p ctx' ctx'' proc' proc'' c) :
    CloseFrame p ctx ctx'' proc proc'' c := by
  refine ⟨fun k hk => h'.kept k (h.kept k hk), fun k hk => ?_, fun k hk => ?_⟩
  · refine ⟨((h'.above k hk).1.trans (h.above k hk).1), fun hclosed => ?_⟩
    exact (h.above k hk).2 ((h'.above k hk).2 hclosed)
  · rcases h'.news k hk with hk | hk
    · exact h.news k hk
    · exact .inr hk

/-- What an earlier suboperator does is in the frame of the one that it is closed for. -/
theorem CloseFrame.weaken {j : ℕ} (h : CloseFrame p ctx ctx' proc proc' j) (hjc : j < c)
    (hread : ∃ d, j ∈ p.incomingEdges d) : CloseFrame p ctx ctx' proc proc' c := by
  refine ⟨h.kept, fun k hk => h.above k (Nat.lt_trans hjc hk), fun k hk => ?_⟩
  rcases h.news k hk with hk | rfl | hk
  · exact .inl hk
  · exact .inr (.inr hread)
  · exact .inr (.inr hk)

variable [DecidableEq IU]

theorem Dag.lt_length (hp : Dag p) {j : ℕ} (hj : j ∈ p.incomingEdges c) :
    c < p.suboperators.length := by
  by_contra hge
  have hlength := hp.length c
  rw [sourceIUsAt, List.getElem?_eq_none (Nat.le_of_not_lt hge)] at hlength
  exact List.ne_nil_of_mem hj (List.length_eq_zero_iff.mp hlength)

def ClosesFor (p : Pipeline IU) (opened : CompilationContext IU) (fuel c : ℕ) : Prop :=
  ∀ (ctx : CompilationContext IU) (proc : ℕ → ℕ), CloseInv p opened ctx proc →
    (∀ k ≠ c, Balanced p ctx k) → .closed c ∉ ctx.trace →
    ((∃ d, c ∈ p.incomingEdges d) → ctx.upstreamRequests c = 0) → Settled p ctx proc c →
    Closes p opened ctx proc c (p.closeOp fuel c ctx)

/-- One producer of `c`. -/
theorem closeProducer_spec (hp : Dag p) {fuel i j : ℕ}
    (hclose : ∀ j < c, ClosesFor p opened fuel j)
    (h : CloseInv p opened ctx proc) (hbalanced : ∀ k, Balanced p ctx k)
    (hclosed : .closed c ∈ ctx.trace) (hsettled : Settled p ctx proc c) (hi : proc c = i)
    (hj : (p.incomingEdges c)[i]? = some j) :
    ∃ ctx' proc', Pipeline.closeProducer (p.closeOp fuel) ctx j = some ctx' ∧
      CloseInv p opened ctx' proc' ∧ (∀ k, Balanced p ctx' k) ∧ proc' c = i + 1 ∧
      Settled p ctx' proc' c ∧ CloseFrame p ctx ctx' proc proc' c := by
  have hmem := List.mem_of_getElem? hj
  have hjc := (hp.before j c hmem).1
  have hc := hp.lt_length hmem
  have hpos := h.upstream_pos hc hi hj
  obtain ⟨hinv, hrelease⟩ := h.release hc hclosed hi hj
  have hopen : .closed j ∉ ctx.trace := by
    rw [hbalanced j ⟨c, hmem⟩]
    omega
  have hbalanced' : ∀ k ≠ j, Balanced p (ctx.release j) k := by
    intro k hk hread
    rw [hrelease, if_neg (Ne.symm hk), Nat.sub_zero]
    exact hbalanced k hread
  have hsettled' : Settled p (ctx.release j) (Function.update proc c (i + 1)) c := by
    intro k hk hclosed
    rw [Function.update_of_ne (Nat.ne_of_lt hk)]
    exact hsettled k hk hclosed
  rw [Pipeline.closeProducer]
  split
  · next hzero =>
    obtain ⟨ctx', proc', hresult, hinv', hbalanced'', hclosed', hsettled'', hframe⟩ :=
      hclose j hjc _ _ hinv hbalanced' hopen (fun _ => hzero)
        (fun k hk => hsettled' k (Nat.lt_trans hk hjc))
    refine ⟨ctx', proc', hresult, hinv', hbalanced'', ?_, fun k hk hclosed => ?_, ?_⟩
    · rw [(hframe.above c hjc).1, Function.update_self]
    · rcases Nat.lt_or_ge j k with hjk | hjk
      · obtain ⟨hproc, hback⟩ := hframe.above k hjk
        rw [hproc]
        exact hsettled' k hk (hback hclosed)
      · exact hsettled'' k (Nat.lt_succ_of_le hjk) hclosed
    · obtain ⟨hkept, habove, hnews⟩ := hframe.weaken hjc ⟨c, hmem⟩
      refine ⟨hkept, fun k hk => ?_, hnews⟩
      rw [(habove k hk).1, Function.update_of_ne (Nat.ne_of_gt hk)]
      exact ⟨rfl, (habove k hk).2⟩
  · next hnonzero =>
    refine ⟨_, _, rfl, hinv, fun k => ?_, Function.update_self .., hsettled',
      fun _ hk => hk, fun k hk => ⟨Function.update_of_ne (Nat.ne_of_gt hk) .., fun hk => hk⟩,
      fun _ hk => .inl hk⟩
    by_cases hk : k = j
    · intro _
      rw [hk]
      exact ⟨fun hclosed => absurd hclosed hopen, fun hzero => absurd hzero hnonzero⟩
    · exact hbalanced' k hk

/-- The producers of `c` that are left. -/
theorem closeProducers_spec (hp : Dag p) {fuel i : ℕ}
    (hclose : ∀ j < c, ClosesFor p opened fuel j) (rest : List ℕ)
    (hrest : (p.incomingEdges c).drop i = rest)
    (h : CloseInv p opened ctx proc) (hbalanced : ∀ k, Balanced p ctx k)
    (hclosed : .closed c ∈ ctx.trace) (hsettled : Settled p ctx proc c) (hi : proc c = i)
    (hle : i ≤ (p.incomingEdges c).length) :
    Closes p opened ctx proc c (rest.foldlM (Pipeline.closeProducer (p.closeOp fuel)) ctx) := by
  induction rest generalizing i ctx proc with
  | nil =>
    have hge := List.drop_eq_nil_iff.mp hrest
    refine ⟨ctx, proc, rfl, h, hbalanced, hclosed, fun k hk hkclosed => ?_, fun _ hk => hk,
      fun _ _ => ⟨rfl, fun hk => hk⟩, fun _ hk => .inl hk⟩
    rcases Nat.lt_succ_iff_lt_or_eq.mp hk with hk | rfl
    · exact hsettled k hk hkclosed
    · rw [hi]
      exact Nat.le_antisymm hle hge
  | cons j rest ih =>
    have hj : (p.incomingEdges c)[i]? = some j := by
      have hget := congrArg (·[0]?) hrest
      simpa using hget
    obtain ⟨ctx', proc', hresult, hinv, hbalanced', hproc, hsettled', hframe⟩ :=
      closeProducer_spec hp hclose h hbalanced hclosed hsettled hi hj
    have hrest' : (p.incomingEdges c).drop (i + 1) = rest := by
      rw [← List.tail_drop, hrest, List.tail_cons]
    obtain ⟨ctx'', proc'', hresult', hinv', hbalanced'', hclosed', hsettled'', hframe'⟩ :=
      ih hrest' hinv hbalanced' (hframe.kept c hclosed) hsettled' hproc
        (List.getElem?_eq_some_iff.mp hj).1
    rw [List.foldlM_cons, hresult]
    exact ⟨ctx'', proc'', hresult', hinv', hbalanced'', hclosed', hsettled'', hframe.trans hframe'⟩

/-- Closing goes down to the producers of which `c` was the last reader. -/
theorem closesFor (hp : Dag p) {fuel : ℕ} (hfuel : c < fuel) : ClosesFor p opened fuel c := by
  induction fuel generalizing c with
  | zero => exact absurd hfuel (Nat.not_lt_zero c)
  | succ fuel ih =>
    intro ctx proc h hbalanced hnew hzero hsettled
    have hinv :=
      h.close hnew (fun d hd => h.closed_of_upstream (hzero ⟨d, hd⟩) (hp.lt_length hd) hd)
      (hp.consumers c)
    have hproc := h.fresh c hnew
    have hclosed : .closed c ∈ (ctx.log (.closed c)).trace := by
      simp
    have hbalanced' : ∀ k, Balanced p (ctx.log (.closed c)) k := by
      intro k hread
      by_cases hk : k = c
      · subst hk
        exact ⟨fun _ => hzero hread, fun _ => hclosed⟩
      · simpa [hk] using hbalanced k hk hread
    have hsettled' : Settled p (ctx.log (.closed c)) proc c := by
      intro k hk hkclosed
      apply hsettled k hk
      simpa [Nat.ne_of_lt hk] using hkclosed
    have hframe : CloseFrame p ctx (ctx.log (.closed c)) proc proc c := by
      refine ⟨fun k hk => List.mem_append_left _ hk, fun k hk => ⟨rfl, fun hkclosed => ?_⟩,
        fun k hk => ?_⟩
      · simpa [Nat.ne_of_gt hk] using hkclosed
      · simp only [CompilationContext.log, List.mem_append, List.mem_singleton,
          ProtocolEvent.closed.injEq] at hk
        exact hk.imp_right .inl
    obtain ⟨ctx', proc', hresult, hinv', hbalanced'', hclosed', hsettled'', hframe'⟩ :=
      closeProducers_spec hp (fun j hj => ih (Nat.lt_of_lt_of_le hj (Nat.le_of_lt_succ hfuel)))
        (p.incomingEdges c) (List.drop_zero ..) hinv hbalanced' hclosed hsettled' hproc
        (Nat.zero_le _)
    refine ⟨ctx', proc', ?_, hinv', hbalanced'', hclosed', hsettled'', hframe.trans hframe'⟩
    rw [Pipeline.closeOp, ← hresult]
    have hlength := hp.length c
    cases hincoming : p.incomingEdges c with
    | nil =>
      rw [hincoming, List.length_nil, eq_comm, List.length_eq_zero_iff] at hlength
      rw [hlength]
      rfl
    | cons j rest =>
      have hne : (sourceIUsAt p.suboperators c).isEmpty = false := by
        rw [List.isEmpty_eq_false_iff, ← List.length_pos_iff, ← hlength, hincoming]
        exact Nat.succ_pos _
      rw [hne]
      rfl

/-- Closing what nobody reads, one after the other. -/
theorem closeAll_spec (hp : Dag p) (fuel : ℕ) (hfuel : p.suboperators.length ≤ fuel)
    (todo : List ℕ) (hnodup : todo.Nodup)
    (htodo : ∀ k ∈ todo, k < p.suboperators.length ∧ ∀ c, k ∉ p.incomingEdges c)
    (h : CloseInv p opened ctx proc) (hbalanced : ∀ k, Balanced p ctx k)
    (hsettled : ∀ k, .closed k ∈ ctx.trace → proc k = (p.incomingEdges k).length)
    (hnew : ∀ k ∈ todo, .closed k ∉ ctx.trace) :
    ∃ ctx' proc', todo.foldlM (fun ctx sink => p.closeOp fuel sink ctx) ctx = some ctx' ∧
      CloseInv p opened ctx' proc' ∧ (∀ k, Balanced p ctx' k) ∧
      (∀ k, .closed k ∈ ctx'.trace → proc' k = (p.incomingEdges k).length) ∧
      (∀ k, .closed k ∈ ctx.trace → .closed k ∈ ctx'.trace) ∧
      ∀ k ∈ todo, .closed k ∈ ctx'.trace := by
  induction todo generalizing ctx proc with
  | nil => exact ⟨ctx, proc, rfl, h, hbalanced, hsettled, fun _ hk => hk, by simp⟩
  | cons r todo ih =>
    obtain ⟨hr, hroot⟩ := htodo r (List.mem_cons_self ..)
    obtain ⟨hnot, hnodup'⟩ := List.nodup_cons.mp hnodup
    obtain ⟨ctx', proc', hresult, hinv, hbalanced', hclosed, hsettled', hframe⟩ :=
      closesFor hp (Nat.lt_of_lt_of_le hr hfuel) ctx proc h (fun k _ => hbalanced k)
        (hnew r (List.mem_cons_self ..)) (fun ⟨d, hd⟩ => absurd hd (hroot d))
        (fun k _ => hsettled k)
    have hsettledAll : ∀ k, .closed k ∈ ctx'.trace → proc' k = (p.incomingEdges k).length := by
      intro k hk
      rcases Nat.lt_or_ge r k with hrk | hrk
      · rw [(hframe.above k hrk).1]
        exact hsettled k ((hframe.above k hrk).2 hk)
      · exact hsettled' k (Nat.lt_succ_of_le hrk) hk
    have hnew' : ∀ k ∈ todo, .closed k ∉ ctx'.trace := by
      intro k hk hkclosed
      rcases hframe.news k hkclosed with hkclosed | rfl | ⟨d, hd⟩
      · exact hnew k (List.mem_cons_of_mem _ hk) hkclosed
      · exact hnot hk
      · exact (htodo k (List.mem_cons_of_mem _ hk)).2 d hd
    obtain ⟨ctx'', proc'', hresult', hinv', hbalanced'', hsettled'', hkept, hall⟩ :=
      ih hnodup' (fun k hk => htodo k (List.mem_cons_of_mem _ hk)) hinv hbalanced' hsettledAll hnew'
    refine ⟨ctx'', proc'', ?_, hinv', hbalanced'', hsettled'', ?_, ?_⟩
    · rw [List.foldlM_cons, hresult]
      exact hresult'
    · exact fun k hk => hkept k (hframe.kept k hk)
    · intro k hk
      rcases List.mem_cons.mp hk with rfl | hk
      · exact hkept _ hclosed
      · exact hall k hk

theorem Dag.sinks (hp : Dag p) : p.sinks.Nodup ∧
    (∀ k ∈ p.sinks, k < p.suboperators.length ∧ ∀ c, k ∉ p.incomingEdges c) ∧
    ∀ k < p.suboperators.length, k ∈ p.sinks ∨ ∃ c, k ∈ p.incomingEdges c := by
  have hmem : ∀ k, k ∈ p.sinks ↔ k < p.suboperators.length ∧
      (p.producesNoRequest k = true ∨ p.isSinkAt k = true) := by
    intro k
    simp only [Pipeline.sinks, List.mem_append, List.mem_filter, List.mem_range, and_or_left]
  have hunread : ∀ k, (p.producesNoRequest k = true ∨ p.isSinkAt k = true) ↔
      ∀ c, k ∉ p.incomingEdges c := by
    intro k
    rw [Pipeline.producesNoRequest, ← hp.readers]
    cases hsink : p.isSinkAt k with
    | false => simp
    | true =>
      simp only [or_true, true_iff]
      rw [hp.readers]
      intro c hc
      rw [(hp.before k c hc).2] at hsink
      cases hsink
  refine ⟨?_, fun k hk => ?_, fun k hk => ?_⟩
  · apply List.Nodup.append
    · exact List.nodup_range.filter _
    · exact List.nodup_range.filter _
    · intro k hk hk'
      have hnone := (List.mem_filter.mp hk).2
      have hsink := (List.mem_filter.mp hk').2
      simp [Pipeline.producesNoRequest, hsink] at hnone
  · rw [hmem, hunread] at hk
    exact hk
  · by_contra hnot
    rw [not_or, hmem, hunread, not_exists] at hnot
    exact hnot.1 ⟨hk, hnot.2⟩

/-- What follows when it holds of a suboperator whose readers it holds of. -/
theorem Dag.downward (hp : Dag p) {P : ℕ → Prop} (hroot : ∀ k ∈ p.sinks, P k)
    (hread : ∀ k c, k ∈ p.incomingEdges c → (∀ d, k ∈ p.incomingEdges d → P d) → P k) :
    ∀ k < p.suboperators.length, P k := by
  have hdown : ∀ m k, p.suboperators.length - k = m → k < p.suboperators.length → P k := by
    intro m
    induction m using Nat.strong_induction_on with
    | _ m ih =>
      intro k hm hk
      rcases hp.sinks.2.2 k hk with hsink | ⟨c, hc⟩
      · exact hroot k hsink
      · apply hread k c hc
        intro d hd
        have hkd := (hp.before k d hd).1
        have hdn := hp.lt_length hd
        exact ih _ (by omega) d rfl hdn
  exact fun k hk => hdown _ k rfl hk

/-- The first half of `compile`. -/
theorem opens_spec (hp : Dag p) (fuel : ℕ) (hfuel : 2 * p.suboperators.length + 3 ≤ fuel) :
    ∃ ctx : CompilationContext IU, ∃ σ,
      p.sinks.foldlM (fun ctx sink => p.openOp fuel sink ctx) .start = some ctx ∧
      OpenInv p p.sinks ctx σ ∧ ∀ k < p.suboperators.length, σ k = .finished := by
  obtain ⟨hnodup, hsinks, -⟩ := hp.sinks
  have hstart : OpenInv p [] (CompilationContext.start : CompilationContext IU)
      (fun _ => .idle) := by
    refine ⟨fun k => ?_, fun k => ?_, fun pre e post heq => ?_, rfl, ?_, ?_⟩
    · simp [LocalOk, CompilationContext.start]
    · simp [CompilationContext.start, requestedAt]
    · simp [CompilationContext.start] at heq
    · simp
    · simp [CompilationContext.start]
  obtain ⟨ctx, σ, hresult, hinv, hstack, hlater, hopened⟩ :=
    openAll_spec hp fuel hfuel p.sinks hnodup (by simp) hsinks hstart ⟨trivial, by simp⟩
  refine ⟨ctx, σ, hresult, hinv, hp.downward (fun k hk => ?_) fun k c hc hreaders => ?_⟩
  · cases hs : σ k with
    | idle => exact absurd hs (hopened k hk)
    | active j w q => simpa using hstack.complete k j w q hs
    | late => simpa using hlater.late k hs
    | finished => rfl
  · have hlocal := hinv.localOk c
    simp only [LocalOk, hreaders c hc] at hlocal
    have hdone := hlocal.2.2.2.2.2.2 k hc
    cases hs : σ k with
    | idle => simp [hs, Status.Done] at hdone
    | active j w q => simp [hs, Status.Done] at hdone
    | late => simpa using hlater.late k hs
    | finished => rfl

/-- The code generation protocol visits every suboperator exactly once: whatever the pipeline,
`compile` opens and closes each of them, lets each that is no source consume all its inputs, after
all of them were announced, closes none before its consumers, and keeps every request. -/
theorem compile_visits_once {subops : List (Suboperator IU)} (hsubops : DefaultProtocol subops)
    (fuel : ℕ) (hfuel : 2 * subops.length + 3 ≤ fuel) :
    ∃ ctx, (Pipeline.build subops).compile fuel = some ctx ∧ ctx.overwritten = false ∧
      (∀ k < subops.length, ctx.trace.count (.opened k) = 1 ∧
        ctx.trace.count (.consumedAll k) = (if sourceIUsAt subops k = [] then 0 else 1) ∧
        ctx.trace.count (.closed k) = 1) ∧
      Preceded (Pipeline.build subops) ctx.trace := by
  have hp := dag_build hsubops.provided
  set p := Pipeline.build subops
  have hsubops : p.suboperators = subops := build_suboperators subops
  obtain ⟨ctx, σ, hopen, hinv, hfinished⟩ := opens_spec hp fuel (by rwa [hsubops])
  obtain ⟨hnodup, hsinks, -⟩ := hp.sinks
  have hclose : CloseInv p ctx ctx (fun _ => 0) := by
    refine ⟨fun _ _ => rfl, hinv.kept, hinv.preceded, fun k => ?_, fun k => ?_, fun _ _ => rfl⟩
    · rw [hinv.upstream]
      apply Finset.sum_congr rfl
      intro c hc
      rw [requestedAt, hfinished c (Finset.mem_range.mp hc), List.take_length, List.drop_zero]
    · rw [List.count_eq_zero.mpr (hinv.notClosed k)]
      exact Nat.zero_le 1
  have hbalanced : ∀ k, Balanced p ctx k := by
    rintro k ⟨c, hc⟩
    refine ⟨fun hk => absurd hk (hinv.notClosed k), fun hzero => ?_⟩
    exact absurd (hclose.closed_of_upstream hzero (hp.lt_length hc) hc) (hinv.notClosed c)
  obtain ⟨ctx', proc', hresult, hinv', hbalanced', hsettled', -, hall⟩ :=
    closeAll_spec hp fuel (by rw [hsubops]; omega) p.sinks hnodup hsinks hclose hbalanced
      (fun k hk => absurd hk (hinv.notClosed k)) (fun k _ => hinv.notClosed k)
  have hclosed : ∀ k < p.suboperators.length, .closed k ∈ ctx'.trace := by
    apply hp.downward hall
    intro k c hc hreaders
    rw [hbalanced' k ⟨c, hc⟩, hinv'.upstream]
    apply Finset.sum_eq_zero
    intro d _
    by_cases hd : k ∈ p.incomingEdges d
    · rw [hsettled' d (hreaders d hd), List.drop_length, List.count_nil]
    · exact List.count_eq_zero.mpr fun hmem => hd (List.mem_of_mem_drop hmem)
  refine ⟨ctx', ?_, hinv'.kept, fun k hk => ?_, hinv'.preceded⟩
  · rw [Pipeline.compile, hopen]
    exact hresult
  · rw [← hsubops] at hk
    have hlocal := hinv.localOk k
    simp only [LocalOk, hfinished k hk] at hlocal
    have hempty : p.incomingEdges k = [] ↔ sourceIUsAt subops k = [] := by
      rw [← List.length_eq_zero_iff, hp.length k, List.length_eq_zero_iff, hsubops]
    refine ⟨?_, ?_, ?_⟩
    · rw [hinv'.events _ (by simp)]
      exact hlocal.2.1
    · rw [hinv'.events _ (by simp), hlocal.2.2.1]
      simp only [hempty]
    · exact Nat.le_antisymm (hinv'.once k) (List.count_pos_iff.mpr (hclosed k hk))

/-- Two columns that are read twice and by one suboperator together, a copy, two sinks, and an IU
that nobody reads. -/
def sharedColumns : List (Suboperator ℕ) :=
  [.loopDriver 0, .tscanIUProvider 0 1, .tscanIUProvider 0 2, .other 1 [2, 1] [3, 4], .copy 3 5,
    .fuseChunkSink 5, .fuseChunkSink 3, .other 4 [] [6]]

theorem sharedColumns_visited : ∃ ctx, (Pipeline.build sharedColumns).compile 19 = some ctx ∧
    ctx.overwritten = false ∧
    (∀ k < 8, ctx.trace.count (.opened k) = 1 ∧
      ctx.trace.count (.consumedAll k) = (if sourceIUsAt sharedColumns k = [] then 0 else 1) ∧
      ctx.trace.count (.closed k) = 1) ∧
    Preceded (Pipeline.build sharedColumns) ctx.trace :=
  compile_visits_once ⟨by decide, by decide⟩ 19 (by decide)

end Close

end InkFuse.Algebra.SubopGraph
