import InkFuse.Bytes.Packing
import InkFuse.Storage.Relation

/-!
The memory of a string column. A region hands out the slots of its newest array one after another,
and a loaded string is copied behind the strings before it. A string that fills more than one
array does not fit: only an assertion says so.
-/

namespace InkFuse.Storage

open Bytes

/-- The number of eight-byte slots of one array. -/
def REGION_ARRAY_SIZE : ℕ := 512

/-- Why a load ends early: an assertion fails, or bytes outside of an array are written. -/
inductive Fault
  | assertion
  | outside
  deriving DecidableEq, Repr

/-- The array and the byte of it that a pointer points to. -/
structure Pointer where
  region : ℕ
  offset : ℕ
  deriving DecidableEq, Repr

/-- `regionOffset` counts slots of the newest array. -/
structure MemoryRegion where
  regions : List Bytes
  regionOffset : ℕ

namespace MemoryRegion

/-- `make_unique` fills the new array with zeros. -/
def push (m : MemoryRegion) : MemoryRegion where
  regions := m.regions ++ [List.replicate REGION_SIZE 0]
  regionOffset := 0

/-- `asserts` says whether assertions are compiled in. -/
def alloc (asserts : Bool) (m : MemoryRegion) (size : ℕ) :
    Except Fault (MemoryRegion × Pointer) :=
  if asserts = true ∧ ¬ size < REGION_SIZE then .error .assertion
  else
    let slots := (size + 8 - 1) % 2 ^ 64 / 8
    let m := if m.regions = [] ∨ REGION_ARRAY_SIZE < m.regionOffset + slots then m.push else m
    .ok ({ m with regionOffset := m.regionOffset + slots },
      ⟨m.regions.length - 1, 8 * m.regionOffset⟩)

def read (m : MemoryRegion) (p : Pointer) (n : ℕ) : Option Bytes :=
  match m.regions[p.region]? with
  | none => none
  | some region =>
    if p.offset + n ≤ region.length then some (readAt region p.offset n) else none

def write (m : MemoryRegion) (p : Pointer) (bytes : Bytes) : Except Fault MemoryRegion :=
  match m.regions[p.region]? with
  | none => .error .outside
  | some region =>
    if p.offset + bytes.length ≤ region.length then
      .ok { m with regions := m.regions.set p.region (writeAt region p.offset bytes) }
    else .error .outside

end MemoryRegion

structure StringColumn where
  storage : MemoryRegion
  offsets : List Pointer

namespace StringColumn

def empty : StringColumn := ⟨⟨[], 0⟩, []⟩

/-- The length is an unsigned 32 bit number, also after the zero byte was added. -/
def loadValue (asserts : Bool) (c : StringColumn) (str : Bytes) (strLen : UInt32) :
    Except Fault StringColumn := do
  let (storage, elem) ← c.storage.alloc asserts (strLen + 1).toNat
  let storage ← storage.write elem (str.take strLen.toNat)
  let storage ← storage.write ⟨elem.region, elem.offset + strLen.toNat⟩ [0]
  return ⟨storage, c.offsets ++ [elem]⟩

/-- Load one string after another. The caller passes the size of the string. -/
def loads (asserts : Bool) (c : StringColumn) (strings : List Bytes) :
    Except Fault StringColumn :=
  strings.foldlM (fun c s => c.loadValue asserts s (UInt32.ofNat s.length)) c

end StringColumn

/-- Two ranges of bytes have no byte in common. -/
def Apart (p : Pointer) (n : ℕ) (q : Pointer) (k : ℕ) : Prop :=
  p.region ≠ q.region ∨ p.offset + n ≤ q.offset ∨ q.offset + k ≤ p.offset

namespace MemoryRegion

structure WellFormed (m : MemoryRegion) : Prop where
  sizes : ∀ region ∈ m.regions, region.length = REGION_SIZE
  offset_le : m.regionOffset ≤ REGION_ARRAY_SIZE

structure Used (m : MemoryRegion) (p : Pointer) (n : ℕ) : Prop where
  region_lt : p.region < m.regions.length
  inside : p.offset + n ≤ REGION_SIZE
  behind : p.region + 1 = m.regions.length → p.offset + n ≤ 8 * m.regionOffset

theorem read_inside {m : MemoryRegion} {p : Pointer} {n : ℕ} {bytes : Bytes}
    (h : m.read p n = some bytes) :
    ∃ region, m.regions[p.region]? = some region ∧ p.offset + n ≤ region.length := by
  unfold read at h
  cases hregion : m.regions[p.region]? with
  | none =>
    rw [hregion] at h
    cases h
  | some region =>
    rw [hregion] at h
    by_contra hout
    push Not at hout
    simp only [if_neg (Nat.not_le.mpr (hout region rfl))] at h
    cases h

section Alloc

variable {asserts : Bool} {m : MemoryRegion} {size : ℕ}

/-- The memory in which an allocation takes its slots. -/
def ready (m : MemoryRegion) (slots : ℕ) : MemoryRegion :=
  if m.regions = [] ∨ REGION_ARRAY_SIZE < m.regionOffset + slots then m.push else m

theorem ready_sizes (hm : ∀ region ∈ m.regions, region.length = REGION_SIZE) (slots : ℕ) :
    ∀ region ∈ (m.ready slots).regions, region.length = REGION_SIZE := by
  unfold ready
  split
  · intro region hregion
    rcases List.mem_append.mp hregion with hold | hnew
    · exact hm region hold
    · rw [List.mem_singleton.mp hnew, List.length_replicate]
  · exact hm

theorem alloc_sizes {m' : MemoryRegion} {p : Pointer}
    (hm : ∀ region ∈ m.regions, region.length = REGION_SIZE)
    (h : m.alloc asserts size = .ok (m', p)) :
    ∀ region ∈ m'.regions, region.length = REGION_SIZE := by
  unfold alloc at h
  split at h
  · cases h
  · cases h
    exact ready_sizes hm _

theorem ready_fits {slots : ℕ} (hslots : slots ≤ REGION_ARRAY_SIZE) :
    (m.ready slots).regions ≠ [] ∧
      (m.ready slots).regionOffset + slots ≤ REGION_ARRAY_SIZE := by
  unfold ready
  split
  · refine ⟨?_, ?_⟩
    · show m.regions ++ [List.replicate REGION_SIZE 0] ≠ []
      simp
    · show 0 + slots ≤ REGION_ARRAY_SIZE
      omega
  · next h =>
    push Not at h
    exact h

/-- The arrays that exist stay where they are. -/
theorem ready_getElem? {i : ℕ} {slots : ℕ} (hi : i < m.regions.length) :
    (m.ready slots).regions[i]? = m.regions[i]? := by
  unfold ready
  split
  · exact List.getElem?_append_left hi
  · rfl

theorem Used.ready {p : Pointer} {n slots : ℕ} (hp : m.Used p n) : (m.ready slots).Used p n := by
  unfold MemoryRegion.ready
  split
  · have hlen : m.push.regions.length = m.regions.length + 1 := by
      show (m.regions ++ [List.replicate REGION_SIZE 0]).length = _
      simp
    have hlt := hp.region_lt
    refine ⟨?_, hp.inside, ?_⟩
    · rw [hlen]
      omega
    · intro hlast
      rw [hlen] at hlast
      omega
  · exact hp

theorem slots_le (hsize : size ≤ REGION_SIZE) :
    (size + 8 - 1) % 2 ^ 64 / 8 ≤ REGION_ARRAY_SIZE ∧
      size ≤ 8 * ((size + 8 - 1) % 2 ^ 64 / 8) := by
  unfold REGION_SIZE at hsize
  unfold REGION_ARRAY_SIZE
  omega

/-- An allocation that fits in an array is inside of one, behind all earlier ones. -/
theorem alloc_spec (hm : m.WellFormed) (hsize : size ≤ REGION_SIZE)
    (hassert : asserts = true → size < REGION_SIZE) :
    ∃ m' p, m.alloc asserts size = .ok (m', p) ∧ m'.WellFormed ∧ m'.Used p size ∧
      ∀ q n, m.Used q n → m'.Used q n ∧ m'.read q n = m.read q n ∧ Apart q n p size := by
  obtain ⟨hslots, hround⟩ := slots_le hsize
  generalize hs : (size + 8 - 1) % 2 ^ 64 / 8 = slots at hslots hround
  obtain ⟨hne, hroom⟩ := m.ready_fits hslots
  have hsizes := ready_sizes hm.sizes slots
  have hpos : 0 < (m.ready slots).regions.length := List.length_pos_iff.mpr hne
  have hcheck : ¬ (asserts = true ∧ ¬ size < REGION_SIZE) := by
    intro h
    exact h.2 (hassert h.1)
  refine ⟨⟨(m.ready slots).regions, (m.ready slots).regionOffset + slots⟩,
    ⟨(m.ready slots).regions.length - 1, 8 * (m.ready slots).regionOffset⟩, ?_, ?_, ?_, ?_⟩
  · unfold alloc
    rw [if_neg hcheck, hs]
    rfl
  · exact ⟨hsizes, hroom⟩
  · refine ⟨?_, ?_, ?_⟩
    · show (m.ready slots).regions.length - 1 < (m.ready slots).regions.length
      omega
    · show 8 * (m.ready slots).regionOffset + size ≤ REGION_SIZE
      unfold REGION_SIZE at hsize ⊢
      unfold REGION_ARRAY_SIZE at hroom
      omega
    · intro _
      show 8 * (m.ready slots).regionOffset + size ≤ 8 * ((m.ready slots).regionOffset + slots)
      omega
  · intro q n hq
    have hready : (m.ready slots).Used q n := hq.ready
    refine ⟨⟨hready.region_lt, hready.inside, ?_⟩, ?_, ?_⟩
    · intro hlast
      have hbehind := hready.behind hlast
      show q.offset + n ≤ 8 * ((m.ready slots).regionOffset + slots)
      omega
    · unfold read
      rw [show (MemoryRegion.mk (m.ready slots).regions _).regions[q.region]? = _ from
        ready_getElem? hq.region_lt]
    · by_cases hlast : q.region + 1 = (m.ready slots).regions.length
      · exact .inr (.inl (hready.behind hlast))
      · have hlt := hready.region_lt
        apply Or.inl
        show q.region ≠ (m.ready slots).regions.length - 1
        omega

end Alloc

section Write

variable {m m' : MemoryRegion} {p : Pointer} {bytes : Bytes}

theorem write_cases (h : m.write p bytes = .ok m') :
    ∃ region, m.regions[p.region]? = some region ∧ p.offset + bytes.length ≤ region.length ∧
      m' = { m with regions := m.regions.set p.region (writeAt region p.offset bytes) } := by
  unfold write at h
  cases hregion : m.regions[p.region]? with
  | none =>
    rw [hregion] at h
    cases h
  | some region =>
    rw [hregion] at h
    by_cases hfit : p.offset + bytes.length ≤ region.length
    · simp only [if_pos hfit] at h
      cases h
      exact ⟨region, rfl, hfit, rfl⟩
    · simp only [if_neg hfit] at h
      cases h

theorem write_of_used (hm : m.WellFormed) (hp : m.Used p bytes.length) :
    ∃ m', m.write p bytes = .ok m' := by
  have hlt := hp.region_lt
  have hregion : m.regions[p.region]? = some m.regions[p.region] := List.getElem?_eq_getElem hlt
  have hlen := hm.sizes _ (List.getElem_mem hlt)
  have hinside := hp.inside
  unfold write
  rw [hregion]
  simp only [if_pos (hlen ▸ hinside)]
  exact ⟨_, rfl⟩

/-- Two writes one behind the other are one write. -/
theorem write_append {x y : Bytes} (h : m.write p (x ++ y) = .ok m') :
    ∃ m₁, m.write p x = .ok m₁ ∧ m₁.write ⟨p.region, p.offset + x.length⟩ y = .ok m' := by
  obtain ⟨region, hregion, hfit, rfl⟩ := write_cases h
  rw [List.length_append] at hfit
  have hx : p.offset + x.length ≤ region.length := by omega
  refine ⟨{ m with regions := m.regions.set p.region (writeAt region p.offset x) }, ?_, ?_⟩
  · unfold write
    rw [hregion]
    simp only [if_pos hx]
  · have hlt : p.region < m.regions.length := (List.getElem?_eq_some_iff.mp hregion).1
    have hset : (m.regions.set p.region (writeAt region p.offset x))[p.region]? =
        some (writeAt region p.offset x) := List.getElem?_set_self hlt
    have hy : p.offset + x.length + y.length ≤ (writeAt region p.offset x).length := by
      rw [writeAt_length hx]
      omega
    unfold write
    simp only [hset, if_pos hy, List.set_set]
    rw [writeAt_writeAt_append (by omega)]

theorem write_sizes (hm : ∀ region ∈ m.regions, region.length = REGION_SIZE)
    (h : m.write p bytes = .ok m') : ∀ region ∈ m'.regions, region.length = REGION_SIZE := by
  obtain ⟨region, hregion, hfit, rfl⟩ := write_cases h
  intro r hr
  rcases List.mem_or_eq_of_mem_set hr with hold | hnew
  · exact hm r hold
  · rw [hnew, writeAt_length hfit]
    exact hm region (List.mem_of_getElem? hregion)

theorem WellFormed.write (hm : m.WellFormed) (h : m.write p bytes = .ok m') : m'.WellFormed := by
  refine ⟨write_sizes hm.sizes h, ?_⟩
  obtain ⟨region, hregion, hfit, rfl⟩ := write_cases h
  exact hm.offset_le

theorem Used.write {q : Pointer} {n : ℕ} (hq : m.Used q n) (h : m.write p bytes = .ok m') :
    m'.Used q n := by
  obtain ⟨region, hregion, hfit, rfl⟩ := write_cases h
  refine ⟨?_, hq.inside, ?_⟩
  · rw [List.length_set]
    exact hq.region_lt
  · intro hlast
    rw [List.length_set] at hlast
    exact hq.behind hlast

theorem read_write (h : m.write p bytes = .ok m') : m'.read p bytes.length = some bytes := by
  obtain ⟨region, hregion, hfit, rfl⟩ := write_cases h
  have hlt : p.region < m.regions.length := (List.getElem?_eq_some_iff.mp hregion).1
  have hset : (m.regions.set p.region (writeAt region p.offset bytes))[p.region]? =
      some (writeAt region p.offset bytes) := List.getElem?_set_self hlt
  unfold read
  simp only [hset]
  rw [writeAt_length hfit, if_pos hfit, readAt_writeAt (by omega)]

theorem read_write_apart {q : Pointer} {n : ℕ} (h : m.write p bytes = .ok m')
    (hq : Apart q n p bytes.length) : m'.read q n = m.read q n := by
  obtain ⟨region, hregion, hfit, rfl⟩ := write_cases h
  unfold read
  by_cases hsame : p.region = q.region
  · have hlt : p.region < m.regions.length := (List.getElem?_eq_some_iff.mp hregion).1
    have hset : (m.regions.set p.region (writeAt region p.offset bytes))[p.region]? =
        some (writeAt region p.offset bytes) := List.getElem?_set_self hlt
    have hapart := hq.resolve_left (fun hne => hne hsame.symm)
    simp only [← hsame, hset, hregion]
    rw [writeAt_length hfit, readAt_writeAt_disjoint (by omega) hapart]
  · have hset : (m.regions.set p.region (writeAt region p.offset bytes))[q.region]? =
        m.regions[q.region]? := List.getElem?_set_ne hsame
    simp only [hset]

end Write

end MemoryRegion

namespace StringColumn

/-- What a column owes to the strings that were loaded into it: every pointer leads to a copy of
its string and a zero byte inside one array, and the copies do not overlap. -/
structure Intact (c : StringColumn) (strings : List Bytes) : Prop where
  length_eq : c.offsets.length = strings.length
  copied : ∀ row ∈ strings.zip c.offsets,
    c.storage.read row.2 (row.1.length + 1) = some (row.1 ++ [0])
  disjoint : (strings.zip c.offsets).Pairwise fun row₁ row₂ =>
    Apart row₁.2 (row₁.1.length + 1) row₂.2 (row₂.1.length + 1)

/-- The strings are intact, and they were handed out. -/
structure Inv (c : StringColumn) (strings : List Bytes) : Prop extends Intact c strings where
  wellFormed : c.storage.WellFormed
  used : ∀ row ∈ strings.zip c.offsets, c.storage.Used row.2 (row.1.length + 1)

/-- A string that an array has room for, in a build that also checks the assertion. -/
def Fits (asserts : Bool) (s : Bytes) : Prop :=
  s.length + 1 ≤ REGION_SIZE ∧ (asserts = true → s.length + 1 < REGION_SIZE)

section Loads

variable {asserts : Bool} {c c' : StringColumn} {s : Bytes} {strings : List Bytes}

theorem Fits.toNat (hs : Fits asserts s) :
    (UInt32.ofNat s.length).toNat = s.length ∧
      (UInt32.ofNat s.length + 1).toNat = s.length + 1 := by
  have hle := hs.1
  unfold REGION_SIZE at hle
  have hnat : (UInt32.ofNat s.length).toNat = s.length := by
    rw [UInt32.toNat_ofNat']
    omega
  refine ⟨hnat, ?_⟩
  rw [UInt32.toNat_add, hnat]
  show (s.length + 1) % 2 ^ 32 = s.length + 1
  omega

theorem inv_empty : empty.Inv [] where
  length_eq := rfl
  copied := by simp
  disjoint := by simp
  wellFormed := ⟨by simp [empty], Nat.zero_le _⟩
  used := by simp

/-- A string that fits is copied behind the others, which stay what they were. -/
theorem Inv.loadValue (hc : c.Inv strings) (hs : Fits asserts s) :
    ∃ c', c.loadValue asserts s (UInt32.ofNat s.length) = .ok c' ∧
      c'.Inv (strings ++ [s]) ∧ c.offsets <+: c'.offsets := by
  obtain ⟨hlen, hsize⟩ := hs.toNat
  obtain ⟨m₁, elem, halloc, hwell, helem, hold⟩ :=
    MemoryRegion.alloc_spec hc.wellFormed hs.1 hs.2
  have hcopy : (s ++ [0]).length = s.length + 1 := by simp
  obtain ⟨m₂, hwrite⟩ := MemoryRegion.write_of_used hwell (hcopy.symm ▸ helem)
  obtain ⟨m₃, hchars, hzero⟩ := MemoryRegion.write_append hwrite
  have hzip : (strings ++ [s]).zip (c.offsets ++ [elem]) =
      strings.zip c.offsets ++ [(s, elem)] := by
    rw [List.zip_append hc.length_eq.symm]
    rfl
  have hread := MemoryRegion.read_write hwrite
  rw [hcopy] at hread
  refine ⟨⟨m₂, c.offsets ++ [elem]⟩, ?_, ⟨⟨?_, ?_, ?_⟩, hwell.write hwrite, ?_⟩, ?_⟩
  · unfold StringColumn.loadValue
    rw [hsize, halloc, hlen, List.take_length]
    show (do
      let storage ← m₁.write elem s
      let storage ← storage.write ⟨elem.region, elem.offset + s.length⟩ [0]
      return (⟨storage, c.offsets ++ [elem]⟩ : StringColumn)) = _
    rw [hchars]
    show (do
      let storage ← m₃.write ⟨elem.region, elem.offset + s.length⟩ [0]
      return (⟨storage, c.offsets ++ [elem]⟩ : StringColumn)) = _
    rw [hzero]
    rfl
  · rw [List.length_append, List.length_append, hc.length_eq]
    rfl
  · intro row hrow
    rw [hzip] at hrow
    rcases List.mem_append.mp hrow with hearlier | hnew
    · obtain ⟨-, hkeep, hapart⟩ := hold _ _ (hc.used row hearlier)
      rw [MemoryRegion.read_write_apart hwrite (hcopy.symm ▸ hapart), hkeep]
      exact hc.copied row hearlier
    · rw [List.mem_singleton.mp hnew]
      exact hread
  · rw [hzip]
    apply List.pairwise_append.mpr
    refine ⟨hc.disjoint, List.pairwise_singleton _ _, ?_⟩
    intro row hrow last hlast
    rw [List.mem_singleton.mp hlast]
    exact (hold _ _ (hc.used row hrow)).2.2
  · intro row hrow
    rw [hzip] at hrow
    rcases List.mem_append.mp hrow with hearlier | hnew
    · exact (hold _ _ (hc.used row hearlier)).1.write hwrite
    · rw [List.mem_singleton.mp hnew]
      exact helem.write hwrite
  · exact List.prefix_append _ _

theorem loads_append (first second : List Bytes) :
    c.loads asserts (first ++ second) =
      (c.loads asserts first >>= fun c => c.loads asserts second) :=
  List.foldlM_append

theorem loads_cons (h : c.loads asserts (s :: strings) = .ok c') :
    ∃ c₁, c.loadValue asserts s (UInt32.ofNat s.length) = .ok c₁ ∧
      c₁.loads asserts strings = .ok c' := by
  change (c.loadValue asserts s _ >>= fun c => c.loads asserts strings) = _ at h
  cases hload : c.loadValue asserts s (UInt32.ofNat s.length) with
  | error e =>
    rw [hload] at h
    cases h
  | ok c₁ =>
    rw [hload] at h
    exact ⟨c₁, rfl, h⟩

/-- While every string fits, a column takes one after another. -/
theorem Inv.loads {more : List Bytes} (hc : c.Inv strings) (hfit : ∀ s ∈ more, Fits asserts s) :
    ∃ c', c.loads asserts more = .ok c' ∧ c'.Inv (strings ++ more) ∧
      c.offsets <+: c'.offsets := by
  induction more generalizing c strings with
  | nil => exact ⟨c, rfl, (List.append_nil strings).symm ▸ hc, List.prefix_rfl⟩
  | cons s more ih =>
    obtain ⟨c₁, hload, hc₁, hfirst⟩ := hc.loadValue (hfit s (List.mem_cons_self ..))
    obtain ⟨c', hloads, hc', hrest⟩ := ih hc₁ fun t ht => hfit t (List.mem_cons_of_mem s ht)
    rw [List.append_assoc, List.singleton_append] at hc'
    refine ⟨c', ?_, hc', hfirst.trans hrest⟩
    show (c.loadValue asserts s _ >>= fun c => c.loads asserts more) = _
    rw [hload]
    exact hloads

theorem loadValue_cases {strLen : UInt32} (h : c.loadValue asserts s strLen = .ok c') :
    ∃ m₁ m₂ elem, c.storage.alloc asserts (strLen + 1).toNat = .ok (m₁, elem) ∧
      m₁.write elem (s.take strLen.toNat) = .ok m₂ ∧
      m₂.write ⟨elem.region, elem.offset + strLen.toNat⟩ [0] = .ok c'.storage := by
  unfold StringColumn.loadValue at h
  cases halloc : c.storage.alloc asserts (strLen + 1).toNat with
  | error e =>
    rw [halloc] at h
    cases h
  | ok taken =>
    obtain ⟨m₁, elem⟩ := taken
    rw [halloc] at h
    cases hchars : m₁.write elem (s.take strLen.toNat) with
    | error e =>
      simp only [bind, Except.bind, hchars] at h
      cases h
    | ok m₂ =>
      cases hzero : m₂.write ⟨elem.region, elem.offset + strLen.toNat⟩ [0] with
      | error e =>
        simp only [bind, Except.bind, hchars, hzero] at h
        cases h
      | ok m₃ =>
        simp only [bind, Except.bind, hchars, hzero] at h
        cases h
        exact ⟨m₁, m₂, elem, rfl, hchars, hzero⟩

/-- What an assertion accepts is smaller than an array. -/
theorem loadValue_asserts {strLen : UInt32} (h : c.loadValue true s strLen = .ok c') :
    (strLen + 1).toNat < REGION_SIZE := by
  obtain ⟨m₁, m₂, elem, halloc, -, -⟩ := loadValue_cases h
  by_contra hlarge
  unfold MemoryRegion.alloc at halloc
  rw [if_pos ⟨rfl, hlarge⟩] at halloc
  cases halloc

/-- The arrays have their size in every state, whatever is loaded. -/
theorem loadValue_sizes {strLen : UInt32} (h : c.loadValue asserts s strLen = .ok c')
    (hc : ∀ region ∈ c.storage.regions, region.length = REGION_SIZE) :
    ∀ region ∈ c'.storage.regions, region.length = REGION_SIZE := by
  obtain ⟨m₁, m₂, elem, halloc, hchars, hzero⟩ := loadValue_cases h
  have h₁ := MemoryRegion.alloc_sizes hc halloc
  exact MemoryRegion.write_sizes (MemoryRegion.write_sizes h₁ hchars) hzero

theorem loads_sizes (h : c.loads asserts strings = .ok c')
    (hc : ∀ region ∈ c.storage.regions, region.length = REGION_SIZE) :
    ∀ region ∈ c'.storage.regions, region.length = REGION_SIZE := by
  induction strings generalizing c with
  | nil =>
    cases h
    exact hc
  | cons s strings ih =>
    obtain ⟨c₁, hload, hloads⟩ := loads_cons h
    exact ih hloads (loadValue_sizes hload hc)

theorem loads_mem (h : c.loads asserts strings = .ok c') (hs : s ∈ strings) :
    ∃ c₁ c₂ : StringColumn, c₁.loadValue asserts s (UInt32.ofNat s.length) = .ok c₂ := by
  induction strings generalizing c with
  | nil => cases hs
  | cons t strings ih =>
    obtain ⟨c₁, hload, hloads⟩ := loads_cons h
    rcases List.mem_cons.mp hs with rfl | hrest
    · exact ⟨c, c₁, hload⟩
    · exact ih hloads hrest

/-- Strings that are intact fit: the copies are inside of arrays. -/
theorem Intact.fits (h : empty.loads asserts strings = .ok c) (hc : c.Intact strings)
    (hs : s ∈ strings) : Fits asserts s := by
  obtain ⟨i, hi, rfl⟩ := List.mem_iff_getElem.mp hs
  have hi' : i < c.offsets.length := hc.length_eq ▸ hi
  have hrow : (strings[i], c.offsets[i]) ∈ strings.zip c.offsets := by
    apply List.mem_iff_getElem.mpr
    refine ⟨i, ?_, List.getElem_zip⟩
    rw [List.length_zip]
    omega
  have hsizes := loads_sizes h (by simp [empty])
  have hle : strings[i].length + 1 ≤ REGION_SIZE := by
    obtain ⟨region, hregion, hinside⟩ := MemoryRegion.read_inside (hc.copied _ hrow)
    rw [hsizes region (List.mem_of_getElem? hregion)] at hinside
    exact (Nat.le_add_left _ _).trans hinside
  refine ⟨hle, ?_⟩
  intro hasserts
  subst hasserts
  obtain ⟨c₁, c₂, hload⟩ := loads_mem h hs
  have hlt := loadValue_asserts hload
  have hplain : Fits false strings[i] := by
    refine ⟨hle, ?_⟩
    intro h
    cases h
  rw [hplain.toNat.2] at hlt
  exact hlt

end Loads

/-- The column keeps all strings: they are loaded and intact, and every string was intact already
when it had just been loaded, at the same place. -/
def KeepsStrings (asserts : Bool) (strings : List Bytes) : Prop :=
  ∃ c, empty.loads asserts strings = .ok c ∧ c.Intact strings ∧
    ∀ earlier, earlier <+: strings →
      ∃ c₀, empty.loads asserts earlier = .ok c₀ ∧ c₀.Intact earlier ∧ c₀.offsets <+: c.offsets

/-- Strings are kept exactly if each fits into an array. Without assertions, a longer string is
written over the end of the array. -/
theorem keepsStrings_iff (asserts : Bool) (strings : List Bytes) :
    KeepsStrings asserts strings ↔ ∀ s ∈ strings, s.length + 1 ≤ REGION_SIZE ∧
      (asserts = true → s.length + 1 < REGION_SIZE) := by
  constructor
  · intro h
    obtain ⟨c, hloads, hc, -⟩ := h
    intro s hs
    exact hc.fits hloads hs
  · intro hfit
    obtain ⟨c, hloads, hc, -⟩ := inv_empty.loads hfit
    rw [List.nil_append] at hc
    refine ⟨c, hloads, hc.toIntact, ?_⟩
    intro earlier hearlier
    obtain ⟨later, rfl⟩ := hearlier
    obtain ⟨c₀, hloads₀, hc₀, -⟩ := inv_empty.loads fun s hs =>
      hfit s (List.mem_append_left later hs)
    rw [List.nil_append] at hc₀
    obtain ⟨c₁, hloads₁, -, hoffsets⟩ := hc₀.loads fun s hs =>
      hfit s (List.mem_append_right earlier hs)
    have hsame : c₁ = c := by
      rw [loads_append, hloads₀] at hloads
      have hrest : c₀.loads asserts later = .ok c := hloads
      rw [hloads₁] at hrest
      exact Except.ok.inj hrest
    exact ⟨c₀, hloads₀, hc₀.toIntact, hsame ▸ hoffsets⟩

/-- A string of 4096 characters does not fit. -/
theorem long_string_lost : ¬ KeepsStrings false [List.replicate 4096 97] := by
  intro h
  obtain ⟨c, hloads, hc, -⟩ := h
  have hfit := (hc.fits hloads (List.mem_cons_self ..)).1
  rw [List.length_replicate] at hfit
  unfold REGION_SIZE at hfit
  omega

section Refinement

variable {c : StringColumn} {texts : List Bytes} {memory : Bytes} {strLen : ℕ}

/-- A column of a relation only has the texts of its rows. It accepts the texts that the assertion
accepts, and the memory then keeps them. -/
theorem Inv.refines (float : FloatConversions) (hc : c.Inv texts) (hlen : strLen < 2 ^ 32)
    (hmemory : strLen ≤ memory.length) :
    (∃ c', c.loadValue true memory (UInt32.ofNat strLen) = .ok c' ∧
        c'.Inv (texts ++ [memory.take strLen]) ∧
        Column.loadValue float (some memory) strLen (.string texts) =
          (.done, .string (texts ++ [memory.take strLen]))) ∨
      (∀ c', c.loadValue true memory (UInt32.ofNat strLen) ≠ .ok c') ∧
        Column.loadValue float (some memory) strLen (.string texts) =
          (.undefined, .string texts) := by
  have hnat : (UInt32.ofNat strLen).toNat = strLen := by
    rw [UInt32.toNat_ofNat']
    omega
  have hsize : (UInt32.ofNat strLen + 1).toNat = (strLen + 1) % 2 ^ 32 := by
    rw [UInt32.toNat_add, hnat]
    rfl
  by_cases hok : (strLen + 1) % 2 ^ 32 < REGION_SIZE ∧ strLen < (strLen + 1) % 2 ^ 32
  · have htake : (memory.take strLen).length = strLen := by
      rw [List.length_take]
      omega
    have hfits : Fits true (memory.take strLen) := by
      unfold Fits
      rw [htake]
      omega
    obtain ⟨c', hload, hc', -⟩ := hc.loadValue hfits
    rw [htake] at hload
    refine .inl ⟨c', ?_, hc', ?_⟩
    · rw [← hload]
      unfold StringColumn.loadValue
      rw [hnat, List.take_take, Nat.min_self]
    · unfold Column.loadValue
      exact if_pos hok
  · refine .inr ⟨?_, ?_⟩
    · intro c' hload
      have hlt := loadValue_asserts hload
      rw [hsize] at hlt
      -- Only the largest length wraps, and then the copy does not fit anywhere.
      obtain ⟨m₁, m₂, elem, halloc, hchars, -⟩ := loadValue_cases hload
      obtain ⟨region, hregion, hinside, -⟩ := MemoryRegion.write_cases hchars
      rw [MemoryRegion.alloc_sizes hc.wellFormed.sizes halloc region
        (List.mem_of_getElem? hregion), hnat, List.length_take] at hinside
      unfold REGION_SIZE at hinside hlt hok
      omega
    · unfold Column.loadValue
      exact if_neg hok

end Refinement

end StringColumn

end InkFuse.Storage
