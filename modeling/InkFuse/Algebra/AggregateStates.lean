import InkFuse.Algebra.AggregationMerger

/-!
The states of aggregate granules: a granule starts with zeroed bytes and is updated with one value
after the other, and two partial states are merged in place. The merge primitive is chosen by the
type of the aggregated IU first, and has to agree with the update of the granule.
-/

namespace InkFuse.Algebra

open Bytes Codegen InkFuse.Runtime SharedHashTableState AggregateFunctions

section State

/-- `AggregatorSubop`: update the bytes of a state with the bytes of a value. -/
def Granule.update (g : Granule) (state value : Bytes) : Bytes :=
  encode g.stateSize (g.aggState.updateState (decode state) (decode value))

/-- The state after some values. It starts with zeroed memory. -/
def Granule.state (g : Granule) (values : List Bytes) : Bytes :=
  values.foldl g.update (List.replicate g.stateSize 0)

theorem Granule.state_append (g : Granule) (values : List Bytes) (value : Bytes) :
    g.state (values ++ [value]) = g.update (g.state values) value := by
  rw [state, List.foldl_append]
  rfl

/-- A count state holds the number of its values. -/
theorem state_count (iu : IU) (values : List Bytes) :
    Granule.state ⟨iu, AggStateCount⟩ values = encode 8 values.length := by
  induction values using List.reverseRecOn with
  | nil => exact (encode_zero 8).symm
  | append_singleton values value ih =>
    rw [Granule.state_append, ih, List.length_append, Nat.add_comm]
    exact encode_add_decode 8 1 values.length

/-- A sum state over integers holds the sum of its values. -/
theorem state_sum (floatAdd : ℕ → ℕ → ℕ → ℕ) {iu : IU} (hinteger : ∀ size, iu.type ≠ .float size)
    (values : List Bytes) : Granule.state ⟨iu, AggStateSum floatAdd iu.type⟩ values =
      encode iu.type.numBytes (values.map decode).sum := by
  have hupdate : ∀ state value, (AggStateSum floatAdd iu.type).updateState state value =
      value + state := by
    intro state value
    unfold AggStateSum
    split
    · next size htype => exact absurd htype (hinteger size)
    · rfl
  induction values using List.reverseRecOn with
  | nil => exact (encode_zero _).symm
  | append_singleton values value ih =>
    rw [Granule.state_append, ih, List.map_append, List.sum_append, Nat.add_comm, Granule.update,
      hupdate, List.map_singleton, List.sum_singleton]
    exact encode_add_decode iu.type.numBytes (decode value) (values.map decode).sum

end State

section Merge

variable (floatAdd : ℕ → ℕ → ℕ → ℕ)

/-- The granules that the registry creates. -/
def Registered (g : Granule) : Prop :=
  ∃ code states, lookupSubops floatAdd ⟨g.aggIu, code, false⟩ = .ok states ∧ g.aggState ∈ states

/-- In every slot, merging the state of `ys` into the state of `xs` at the same offset leaves the
state of `xs` followed by `ys`, and nothing else changes. -/
def Merges (g : Granule) (xs ys : List Bytes) : Prop :=
  ∃ primitive, mergePrimitive floatAdd g = .ok primitive ∧
    ∀ (table : SharedHashTableState) (generation offset slot : ℕ) (source : Bytes),
      offset + g.stateSize ≤ (table.data slot).length → offset + g.stateSize ≤ source.length →
      readAt (table.data slot) offset g.stateSize = g.state xs →
      readAt source offset g.stateSize = g.state ys →
      mergePair generation primitive.1 primitive.2 offset table ⟨source, generation, slot⟩ =
        .ok (table.setData slot (writeAt (table.data slot) offset (g.state (xs ++ ys))))

/-- The types with a merge primitive of their own. -/
def HasPrimitive (type : IRType) : Prop :=
  type ∈ [IRType.signedInt 4, .signedInt 8, .unsignedInt 4, .unsignedInt 8]

instance (type : IRType) : Decidable (HasPrimitive type) :=
  inferInstanceAs (Decidable (type ∈ _))

/-- When the primitive agrees with the granule. A count over a column of four-byte integers is
merged in its lower half only. -/
def Agrees (g : Granule) (xs ys : List Bytes) : Prop :=
  if g.aggState.id = "agg_state_count" then
    g.aggIu.type ∈ [IRType.signedInt 4, .unsignedInt 4] →
      (xs.length % 2 ^ 32 + ys.length) / 2 ^ 32 % 2 ^ 32 = 0
  else HasPrimitive g.aggIu.type

variable {floatAdd} {g : Granule} {xs ys : List Bytes}

theorem mergePair_ok {table : SharedHashTableState} {generation width offset slot : ℕ}
    {add : ℕ → ℕ → ℕ} {source : Bytes} (hdest : offset + width ≤ (table.data slot).length)
    (hsource : offset + width ≤ source.length) :
    mergePair generation width add offset table ⟨source, generation, slot⟩ =
      .ok (table.setData slot (writeAt (table.data slot) offset (encode width
        (add (decode (readAt (table.data slot) offset width))
          (decode (readAt source offset width)))))) := by
  have hroom : offset + (encode width (add (decode (readAt (table.data slot) offset width))
      (decode (readAt source offset width)))).length ≤ (table.data slot).length := by
    rwa [encode_length]
  rw [mergePair, if_pos rfl, if_pos hsource, copyTo, if_pos hroom]

/-- A primitive of the width of the state. -/
theorem merges_full {a : List Bytes → ℕ} (hstate : ∀ values, g.state values =
    encode g.stateSize (a values)) (hadd : ∀ xs ys, a (xs ++ ys) = a xs + a ys)
    (hprimitive : mergePrimitive floatAdd g = .ok (g.stateSize, (· + ·))) (xs ys : List Bytes) :
    Merges floatAdd g xs ys := by
  refine ⟨_, hprimitive, fun table generation offset slot source hdest hsource hxs hys => ?_⟩
  rw [mergePair_ok hdest hsource, hxs, hys, hstate xs, hstate ys, hstate (xs ++ ys), hadd]
  show Except.ok (table.setData slot (writeAt _ offset (encode _ (_ + _)))) = _
  rw [encode_add_decode, Nat.add_comm, encode_add_decode, Nat.add_comm]

/-- The merge of the lower half of a counter. -/
theorem mergePair_half {table : SharedHashTableState} {generation offset slot x y : ℕ}
    {source : Bytes} (hdest : offset + 8 ≤ (table.data slot).length)
    (hsource : offset + 8 ≤ source.length)
    (hx : readAt (table.data slot) offset 8 = encode 8 x)
    (hy : readAt source offset 8 = encode 8 y) :
    mergePair generation 4 (· + ·) offset table ⟨source, generation, slot⟩ =
      .ok (table.setData slot (writeAt (table.data slot) offset
        (encode 8 ((x + y) % 2 ^ 32 + 2 ^ 32 * (x / 2 ^ 32))))) := by
  have hsplit : ∀ v, encode 8 v = encode 4 v ++ encode 4 (v / 2 ^ 32) :=
    fun v => encode_append 4 4 v
  have hlow : ∀ v, readAt (encode 8 v) 0 4 = encode 4 v := by
    intro v
    rw [hsplit, readAt_zero, List.take_left' (encode_length 4 v)]
  have hx4 : readAt (table.data slot) offset 4 = encode 4 x := by
    rw [← hlow x, ← hx, readAt_readAt _ (by omega), Nat.add_zero]
  have hy4 : readAt source offset 4 = encode 4 y := by
    rw [← hlow y, ← hy, readAt_readAt _ (by omega), Nat.add_zero]
  have hsum : encode 4 (decode (encode 4 x) + decode (encode 4 y)) = encode 4 (x + y) := by
    rw [encode_add_decode, Nat.add_comm, encode_add_decode, Nat.add_comm]
  have hhigh : writeAt (encode 8 x) 0 (encode 4 (x + y)) =
      encode 8 ((x + y) % 2 ^ 32 + 2 ^ 32 * (x / 2 ^ 32)) := by
    rw [hsplit x, hsplit (_ + _), writeAt, List.take_zero, List.nil_append, Nat.zero_add,
      encode_length, List.drop_left' (encode_length 4 x)]
    congr 1
    · rw [encode_eq_iff]
      omega
    · congr 1
      omega
  rw [mergePair_ok (by omega) (by omega), hx4, hy4, hsum,
    ← writeAt_readAt (table.data slot) (encode 4 (x + y)) hdest (by simp), hx, hhigh]

/-- A primitive over the lower half of a counter. -/
theorem merges_half {iu : IU} (hprimitive : mergePrimitive floatAdd ⟨iu, AggStateCount⟩ =
    .ok (4, (· + ·))) : Merges floatAdd ⟨iu, AggStateCount⟩ xs ys ↔
      (xs.length % 2 ^ 32 + ys.length) / 2 ^ 32 % 2 ^ 32 = 0 := by
  have hcarry : encode 8 ((xs.length + ys.length) % 2 ^ 32 + 2 ^ 32 * (xs.length / 2 ^ 32)) =
      encode 8 (xs.length + ys.length) ↔
        (xs.length % 2 ^ 32 + ys.length) / 2 ^ 32 % 2 ^ 32 = 0 := by
    rw [encode_eq_iff]
    omega
  rw [← hcarry]
  constructor
  · intro h
    obtain ⟨primitive, hprimitive', hmerge⟩ := h
    obtain rfl := Except.ok.inj (hprimitive.symm.trans hprimitive')
    -- A table with the state of `xs` in its slots.
    let table : SharedHashTableState := ⟨fun _ => 0, fun _ => encode 8 xs.length, 0, 0, 0, 8⟩
    have hlen : ∀ n, 0 + 8 ≤ (encode 8 n).length := by simp
    have hread : ∀ n, readAt (encode 8 n) 0 8 = encode 8 n := by
      intro n
      rw [readAt_zero, List.take_of_length_le (by simp)]
    have hresult := hmerge table 0 0 0 (encode 8 ys.length) (hlen _) (hlen _)
      ((hread _).trans (state_count iu xs).symm) ((hread _).trans (state_count iu ys).symm)
    have hhalf : mergePair 0 4 (· + ·) 0 table ⟨encode 8 ys.length, 0, 0⟩ = _ :=
      mergePair_half (hlen xs.length) (hlen _) (hread _) (hread _)
    have hdata := congrArg (fun t => t.data 0) (Except.ok.inj (hhalf.symm.trans hresult))
    simp only [setData, Function.update_self] at hdata
    rw [writeAt_inj (Nat.zero_le _) (by simp [state_count]), state_count,
      List.length_append] at hdata
    exact hdata
  · intro hsame
    refine ⟨_, hprimitive, fun table generation offset slot source hdest hsource hxs hys => ?_⟩
    rw [state_count] at hxs hys ⊢
    rw [mergePair_half hdest hsource hxs hys, hsame, List.length_append]

theorem registered_cases (h : Registered floatAdd g) :
    g.aggState = AggStateCount ∨ g.aggState = AggStateSum floatAdd g.aggIu.type := by
  obtain ⟨code, states, hlookup, hmem⟩ := h
  cases code with
  | count =>
    cases hlookup
    exact Or.inl (List.mem_singleton.mp hmem)
  | sum =>
    cases hlookup
    exact Or.inr (List.mem_singleton.mp hmem)
  | avg =>
    cases hlookup
    simp only [List.mem_cons, List.not_mem_nil, or_false] at hmem
    exact hmem.symm
  | min => cases hlookup
  | max => cases hlookup
  | median => cases hlookup

theorem count_id : AggStateCount.id = "agg_state_count" := rfl

theorem sum_id_ne_count (type : IRType) :
    (AggStateSum floatAdd type).id ≠ "agg_state_count" := by
  intro h
  have hchars := congrArg (fun id => id.toList.take 14) h
  simp [AggStateSum] at hchars

theorem mergePrimitive_count {iu : IU} (hinteger : ∀ size, iu.type ≠ .float size) :
    mergePrimitive floatAdd ⟨iu, AggStateCount⟩ =
      .ok (if iu.type ∈ [IRType.signedInt 4, .unsignedInt 4] then 4 else 8, (· + ·)) := by
  obtain ⟨address, type⟩ := iu
  simp only [mergePrimitive]
  split
  · rfl
  · rfl
  · rfl
  · rfl
  · exact absurd rfl (hinteger 4)
  · exact absurd rfl (hinteger 8)
  · next hu4 _ hi4 _ _ _ =>
    rw [if_pos count_id, if_neg]
    simp only [List.mem_cons, List.not_mem_nil, or_false, not_or]
    exact ⟨hi4, hu4⟩

theorem mergePrimitive_sum {iu : IU} (hinteger : ∀ size, iu.type ≠ .float size) :
    mergePrimitive floatAdd ⟨iu, AggStateSum floatAdd iu.type⟩ = if HasPrimitive iu.type
      then .ok (iu.type.numBytes, (· + ·)) else .error .runtimeError := by
  obtain ⟨address, type⟩ := iu
  simp only [mergePrimitive]
  split
  · rfl
  · rfl
  · rfl
  · rfl
  · exact absurd rfl (hinteger 4)
  · exact absurd rfl (hinteger 8)
  · next hu4 hu8 hi4 hi8 _ _ =>
    rw [if_neg (sum_id_ne_count type), if_neg]
    simp only [HasPrimitive, List.mem_cons, List.not_mem_nil, or_false, not_or]
    exact ⟨hi4, hi8, hu4, hu8⟩

/-- Merging two states is the update with the values of both exactly when the primitive agrees with
the granule. -/
theorem merges_iff_agrees (floatAdd : ℕ → ℕ → ℕ → ℕ) (g : Granule) (xs ys : List Bytes)
    (hregistered : Registered floatAdd g) (hinteger : ∀ size, g.aggIu.type ≠ .float size) :
    Merges floatAdd g xs ys ↔ Agrees g xs ys := by
  obtain ⟨iu, aggState⟩ := g
  rcases registered_cases hregistered with hcount | hsum
  · obtain rfl : aggState = AggStateCount := hcount
    have hprimitive : mergePrimitive floatAdd ⟨iu, AggStateCount⟩ = _ :=
      mergePrimitive_count hinteger
    rw [Agrees, if_pos count_id]
    by_cases hfour : iu.type ∈ [IRType.signedInt 4, .unsignedInt 4]
    · rw [if_pos hfour] at hprimitive
      rw [merges_half hprimitive]
      exact ⟨fun h _ => h, fun h => h hfour⟩
    · rw [if_neg hfour] at hprimitive
      have hmerges : Merges floatAdd ⟨iu, AggStateCount⟩ xs ys :=
        merges_full (state_count iu) (fun xs ys => List.length_append) hprimitive xs ys
      exact ⟨fun _ h => absurd h hfour, fun _ => hmerges⟩
  · obtain rfl : aggState = AggStateSum floatAdd iu.type := hsum
    have hprimitive : mergePrimitive floatAdd ⟨iu, AggStateSum floatAdd iu.type⟩ = _ :=
      mergePrimitive_sum hinteger
    rw [Agrees, if_neg (sum_id_ne_count iu.type)]
    by_cases hhas : HasPrimitive iu.type
    · rw [if_pos hhas] at hprimitive
      have hmerges : Merges floatAdd ⟨iu, AggStateSum floatAdd iu.type⟩ xs ys :=
        merges_full (state_sum floatAdd hinteger) (fun xs ys => by simp) hprimitive xs ys
      exact ⟨fun _ => hhas, fun _ => hmerges⟩
    · rw [if_neg hhas] at hprimitive
      refine ⟨fun h => ?_, fun h => absurd h hhas⟩
      obtain ⟨primitive, hprimitive', _⟩ := h
      rw [hprimitive] at hprimitive'
      cases hprimitive'

theorem merges_count_int :
    Merges (fun _ _ _ => 0) ⟨⟨0, .signedInt 4⟩, AggStateCount⟩ [[1, 0, 0, 0]] [[2, 0, 0, 0]] :=
  (merges_iff_agrees (fun _ _ _ => 0) ⟨⟨0, .signedInt 4⟩, AggStateCount⟩ [[1, 0, 0, 0]]
    [[2, 0, 0, 0]] ⟨.count, _, rfl, List.mem_singleton.mpr rfl⟩ (fun _ h => by cases h)).mpr
      (fun _ => by decide)

/-- There is no primitive for sums over short integers, and the primitive for counts over four-byte
integers loses the carry into the upper half of the counter. -/
theorem merge_disagrees :
    (Registered (fun _ _ _ => 0)
        ⟨⟨0, .signedInt 2⟩, AggStateSum (fun _ _ _ => 0) (.signedInt 2)⟩ ∧
      mergePrimitive (fun _ _ _ => 0)
        ⟨⟨0, .signedInt 2⟩, AggStateSum (fun _ _ _ => 0) (.signedInt 2)⟩ = .error .runtimeError ∧
      ¬ Merges (fun _ _ _ => 0) ⟨⟨0, .signedInt 2⟩, AggStateSum (fun _ _ _ => 0) (.signedInt 2)⟩
        [[1, 0]] [[2, 0]]) ∧
    Registered (fun _ _ _ => 0) ⟨⟨0, .signedInt 4⟩, AggStateCount⟩ ∧
      ¬ Merges (fun _ _ _ => 0) ⟨⟨0, .signedInt 4⟩, AggStateCount⟩
        (List.replicate (2 ^ 32 - 1) [1, 0, 0, 0]) [[2, 0, 0, 0]] := by
  have herror : mergePrimitive (fun _ _ _ => 0)
      ⟨⟨0, .signedInt 2⟩, AggStateSum (fun _ _ _ => 0) (.signedInt 2)⟩ = .error .runtimeError :=
    (mergePrimitive_sum fun _ h => by cases h).trans (if_neg (by decide))
  refine ⟨⟨⟨.sum, _, rfl, List.mem_singleton.mpr rfl⟩, herror, fun h => ?_⟩,
    ⟨.count, _, rfl, List.mem_singleton.mpr rfl⟩, fun h => ?_⟩
  · obtain ⟨primitive, hprimitive, _⟩ := h
    rw [herror] at hprimitive
    cases hprimitive
  · rw [merges_half rfl, List.length_replicate] at h
    exact absurd h (by decide)

end Merge

end InkFuse.Algebra
