import LaneGraph.Machine.Basic
import LaneGraph.Proofs.Emission

/-!
# What binding promises

A bound slot is served by elements that lie within the values of its stream, and
the stream is long enough for all instances. Sizes are computed in the address
space, and a stream whose elements leave it is not bound. So every element that is
bound lies in the visible bytes.
-/

namespace LaneGraph

/-- Bytes from the first visible byte of a stream to the end of the value of its
last instance. -/
def Stream.extent (s : Stream) (instances : Nat) : Nat :=
  (instances - 1) * s.stride + s.channel.format.size

/-- The values of all instances of some streams lie within the address space. -/
def Addressed (streams : List Stream) (instances : Nat) : Prop :=
  ∀ s ∈ streams, s.extent instances < addressSpace

/-- Skipping bytes leaves that many fewer. -/
theorem Stream.length_withOffset (s : Stream) (offset : Nat) :
    (s.withOffset offset).length = s.length - offset := by
  unfold length withOffset
  dsimp only
  omega

namespace Overflow

/-- An address that fits is computed, whether overflows are checked or not. -/
theorem address?_of_lt (o : Overflow) {n : Nat} (h : n < addressSpace) :
    o.address? n = some n := by
  cases o with
  | faults => exact if_pos h
  | wraps => exact congrArg some (Nat.mod_eq_of_lt h)

/-- Where overflows are checked, an address that is computed fits. -/
theorem address?_faults {n m : Nat} (h : faults.address? n = some m) :
    m = n ∧ n < addressSpace := by
  unfold address? at h
  dsimp only at h
  split at h
  · cases h
    exact ⟨rfl, ‹_›⟩
  · cases h

end Overflow

namespace ElementView

/-- Bytes from the first visible byte to the end of the element of the last instance. -/
def reach (v : ElementView) (instances : Nat) : Nat :=
  v.offset + (instances - 1) * v.stride + v.encoding.size

variable {v : ElementView} {instances i : Nat}

/-- No element ends after that of the last instance. -/
theorem end_le_reach (hi : i < instances) :
    v.offset + i * v.stride + v.encoding.size ≤ v.reach instances := by
  have hstride : i * v.stride ≤ (instances - 1) * v.stride := Nat.mul_le_mul_right _ (by omega)
  unfold reach
  omega

/-- A part of the instances reaches no further than all of them. -/
theorem reach_mono {count : Nat} (hle : count ≤ instances) :
    v.reach count ≤ v.reach instances := by
  have hstride : (count - 1) * v.stride ≤ (instances - 1) * v.stride :=
    Nat.mul_le_mul_right _ (by omega)
  unfold reach
  omega

/-- Behind the bytes before its first element a view reaches that much less far. -/
theorem reach_skipped (v : ElementView) (instances : Nat) :
    ({ v with offset := 0 } : ElementView).reach instances = v.reach instances - v.offset := by
  unfold reach
  dsimp only
  omega

/-- The size that is required is the end of the last element, as it is computed. -/
theorem requiredBytes?_eq (v : ElementView) (o : Overflow) (hpos : 1 ≤ instances) :
    requiredBytes? o instances v.stride v.offset v.encoding.size =
      o.address? (v.reach instances) :=
  if_neg (by omega)

/-- Where the end of the last element is visible, all elements are visible. -/
theorem allInBounds_of_reach {length : Nat} (hlong : v.reach instances ≤ length) :
    v.allInBounds length instances = true := by
  unfold allInBounds
  rw [List.all_eq_true]
  intro i hi
  have hend := v.end_le_reach (List.mem_range.mp hi)
  exact decide_eq_true (Nat.le_trans hend hlong)

end ElementView

namespace Binding

/-- An element view takes one component of every value of a stream. -/
structure Serves (s : Stream) (v : ElementView) : Prop where
  stride : v.stride = s.stride
  encoding : v.encoding = s.channel.format.encoding
  within : v.offset + v.encoding.size ≤ s.channel.format.size

/-- The end of the last element can be addressed, and the stream is that long. -/
def Reaches (s : Stream) (v : ElementView) (instances : Nat) : Prop :=
  1 ≤ instances → v.reach instances < addressSpace ∧ v.reach instances ≤ s.length

/-- All elements lie within the visible bytes. -/
theorem Reaches.allInBounds {s : Stream} {v : ElementView} {instances : Nat}
    (h : Reaches s v instances) : v.allInBounds s.length instances = true := by
  cases instances with
  | zero => rfl
  | succ count => exact ElementView.allInBounds_of_reach (h (by omega)).2

/-- Behind skipped bytes the stream is still long enough. -/
theorem Reaches.skipped {s : Stream} {v : ElementView} {instances : Nat}
    (h : Reaches s v instances) : Reaches (s.withOffset v.offset) { v with offset := 0 } instances := by
  intro hpos
  obtain ⟨haddressed, hlong⟩ := h hpos
  rw [v.reach_skipped, Stream.length_withOffset]
  omega

/-- The elements that serve a slot end before the values of the stream do. -/
theorem Serves.reach_le {s : Stream} {v : ElementView} (h : Serves s v) (instances : Nat) :
    v.reach instances ≤ s.extent instances := by
  have hwithin := h.within
  unfold ElementView.reach Stream.extent
  rw [h.stride]
  omega

/-- A slot that is a component of a stream has one of its components. -/
def Place.Fits (p : Place) (streams : List Channel) : Prop :=
  ∀ channel c, streams[p.stream]? = some channel → p.component = some c →
    c.index < channel.format.count

/-- A slot is found as a component only where there is such a component. -/
theorem locate?_fits {flags : ExecuteFlags} {streams : List Channel} {slot : Channel} {p : Place}
    (h : locate? flags streams slot = some p) : p.Fits streams := by
  unfold locate? at h
  split at h
  · cases h
    exact fun _ _ _ hnone => (nomatch hnone)
  · split at h
    · cases h
    · split at h
      · cases h
      · rename_i base c _
        obtain ⟨k, hk, rfl⟩ := Option.map_eq_some_iff.mp h
        obtain ⟨hlt, hfound, -⟩ := List.findIdx?_eq_some_iff_getElem.mp hk
        intro channel c' hchannel hcomponent
        cases hcomponent
        rw [List.getElem?_eq_getElem hlt] at hchannel
        cases hchannel
        rw [Bool.and_eq_true, decide_eq_true_eq] at hfound
        exact hfound.2

/-- Every place that is found fits. -/
theorem places_fit {side : Side} {flags : ExecuteFlags} {allowMissing : Bool}
    {streams slots : List Channel} {found : List (Option Place)}
    (h : places side flags allowMissing streams slots = .ok found) :
    ∀ p, some p ∈ found → p.Fits streams := by
  intro p hp
  unfold places at h
  split at h
  · cases h
    obtain ⟨slot, -, hslot⟩ := List.mem_map.mp hp
    exact locate?_fits hslot
  · have hmap : found = (List.range slots.length).map fun i =>
        if i < streams.length then some ⟨i, none⟩ else none := by
      dsimp only at h
      by_cases hfits : (if allowMissing = true then streams.length ≤ slots.length
          else streams.length = slots.length)
      · rw [if_pos hfits] at h
        cases h
        rfl
      · rw [if_neg hfits] at h
        cases h
    rw [hmap] at hp
    obtain ⟨i, -, hi⟩ := List.mem_map.mp hp
    split at hi
    · cases hi
      exact fun _ _ _ hnone => (nomatch hnone)
    · cases hi

/-- A view passed the size check. -/
theorem view_required {o : Overflow} {slot : Channel} {component : Option Component} {s : Stream}
    {instances : Nat} {v : ElementView} (h : view o slot component s instances = .ok v) :
    ∃ required, requiredBytes? o instances v.stride v.offset v.encoding.size = some required ∧
      required ≤ s.length := by
  unfold view at h
  dsimp only at h
  split at h
  · cases h
  · split at h
    · cases h
    · rename_i required hrequired
      split at h
      · cases h
      · rename_i hlong
        cases h
        exact ⟨required, hrequired, Nat.le_of_not_lt hlong⟩

/-- A view takes the elements of its component. -/
theorem view_elements {o : Overflow} {slot : Channel} {component : Option Component} {s : Stream}
    {instances : Nat} {v : ElementView} (h : view o slot component s instances = .ok v) :
    v = ⟨((component.map Component.index).getD 0) * s.channel.format.encoding.size, s.stride,
        s.channel.format.encoding⟩ ∧
      s.channel.format.encoding.kind = slot.format.encoding.kind ∧
      (component = none → s.channel.format.count = 1) := by
  unfold view at h
  dsimp only at h
  split at h
  · cases h
  · rename_i hkind
    rw [not_or, not_and, Decidable.not_not, Decidable.not_not] at hkind
    refine ⟨?_, hkind.1, fun hnone => hkind.2 (by rw [hnone]; rfl)⟩
    split at h
    · cases h
    · split at h
      · cases h
      · cases h
        rfl

/-- Elements that the stream reaches to are a view of a slot of their kind. -/
theorem view_of_reaches {slot : Channel} {component : Option Component} {s : Stream}
    {instances : Nat} {v : ElementView} (hpos : 1 ≤ instances)
    (hv : v = ⟨((component.map Component.index).getD 0) * s.channel.format.encoding.size, s.stride,
      s.channel.format.encoding⟩)
    (hkind : s.channel.format.encoding.kind = slot.format.encoding.kind)
    (hscalar : component = none → s.channel.format.count = 1) (h : Reaches s v instances) :
    view .faults slot component s instances = .ok v := by
  obtain ⟨haddressed, hlong⟩ := h hpos
  have hfits : ¬(s.channel.format.encoding.kind ≠ slot.format.encoding.kind ∨
      (component.isNone ∧ s.channel.format.count ≠ 1)) := by
    rintro (hne | ⟨hnone, hne⟩)
    · exact hne hkind
    · exact hne (hscalar (Option.isNone_iff_eq_none.mp hnone))
  have hrequired := (v.requiredBytes?_eq .faults hpos).trans
    (Overflow.faults.address?_of_lt haddressed)
  rw [hv] at hrequired hlong ⊢
  unfold view
  dsimp only at hrequired hlong ⊢
  rw [if_neg hfits, hrequired]
  exact if_neg (Nat.not_lt.mpr hlong)

/-- The elements of a component that there is, or of a scalar stream, lie in its values. -/
theorem serves_of_fits {component : Option Component} {s : Stream}
    (hscalar : component = none → s.channel.format.count = 1)
    (hfits : ∀ c, component = some c → c.index < s.channel.format.count) :
    Serves s ⟨((component.map Component.index).getD 0) * s.channel.format.encoding.size, s.stride,
      s.channel.format.encoding⟩ := by
  refine ⟨rfl, rfl, ?_⟩
  unfold Format.size
  dsimp only
  cases component with
  | none =>
    rw [hscalar rfl]
    simp
  | some c =>
    have hcomponent : c.index + 1 ≤ s.channel.format.count := hfits c rfl
    calc c.index * s.channel.format.encoding.size + s.channel.format.encoding.size
        = s.channel.format.encoding.size * (c.index + 1) := by
          rw [Nat.mul_add, Nat.mul_one, Nat.mul_comm]
      _ ≤ s.channel.format.encoding.size * s.channel.format.count :=
          Nat.mul_le_mul_left _ hcomponent

/-- A view has the place of its component, and the stream is long enough. -/
theorem view_eq_ok {slot : Channel} {component : Option Component} {s : Stream} {instances : Nat}
    {v : ElementView} (h : view .faults slot component s instances = .ok v)
    (hfits : ∀ c, component = some c → c.index < s.channel.format.count) :
    Serves s v ∧ Reaches s v instances := by
  obtain ⟨required, hrequired, hlong⟩ := view_required h
  obtain ⟨rfl, -, hscalar⟩ := view_elements h
  refine ⟨serves_of_fits hscalar hfits, fun hpos => ?_⟩
  rw [ElementView.requiredBytes?_eq _ _ hpos] at hrequired
  obtain ⟨rfl, haddressed⟩ := Overflow.address?_faults hrequired
  exact ⟨haddressed, hlong⟩

/-- A place with its stream. -/
theorem place_eq_some {streams : List Stream} {place : Option Place} {p : Place} {s : Stream}
    (h : (place.bind fun p => (streams[p.stream]?).map fun s => (p, s)) = some (p, s)) :
    place = some p ∧ streams[p.stream]? = some s := by
  obtain ⟨q, hq, hstream⟩ := Option.bind_eq_some_iff.mp h
  obtain ⟨s', hs', heq⟩ := Option.map_eq_some_iff.mp hstream
  cases heq
  exact ⟨hq, hs'⟩

/-- The stream at a place that fits has the component of the place. -/
theorem Place.Fits.component {p : Place} {streams : List Stream} {s : Stream}
    (h : p.Fits (streams.map (·.channel))) (hs : streams[p.stream]? = some s) :
    ∀ c, p.component = some c → c.index < s.channel.format.count := by
  intro c hc
  refine h s.channel c ?_ hc
  rw [List.getElem?_map, hs]
  rfl

/-- What a bound input slot is served by. -/
theorem bindInput_eq_ok {streams : List Stream} {instances : Nat} {slot : Channel}
    {place : Option Place} {b : BoundInput}
    (hfits : ∀ p, place = some p → p.Fits (streams.map (·.channel)))
    (h : bindInput streams instances slot place = .ok b) :
    ∃ s ∈ streams, ∃ v, Serves s v ∧ Reaches s v instances ∧
      b = ⟨s.withOffset v.offset, { v with offset := 0 }⟩ := by
  unfold bindInput at h
  split at h
  · cases h
  · rename_i p s hplace
    obtain ⟨hp, hs⟩ := place_eq_some hplace
    obtain ⟨v, hv, h⟩ := bind_eq_ok.mp h
    cases h
    obtain ⟨hserves, hreaches⟩ := view_eq_ok hv ((hfits p hp).component hs)
    exact ⟨s, List.mem_of_getElem? hs, v, hserves, hreaches, rfl⟩

/-- What a bound output slot is served by. -/
theorem bindOutput_eq_ok {flags : ExecuteFlags} {streams : List Stream} {instances : Nat}
    {slot : Channel} {place : Option Place} {b : BoundOutput}
    (hfits : ∀ p, place = some p → p.Fits (streams.map (·.channel)))
    (h : bindOutput flags streams instances slot place = .ok (some b)) :
    ∃ s, streams[b.stream]? = some s ∧ Serves s b.view ∧ Reaches s b.view instances := by
  unfold bindOutput at h
  split at h
  · split at h <;> cases h
  · rename_i p s hplace
    obtain ⟨hp, hs⟩ := place_eq_some hplace
    obtain ⟨v, hv, h⟩ := bind_eq_ok.mp h
    cases h
    exact ⟨s, hs, view_eq_ok hv ((hfits p hp).component hs)⟩

/-- Where computations for a list all succeed, each result comes from an entry. -/
theorem mem_of_mapM_eq_ok {ε α β : Type} {f : α → Except ε β} {xs : List α} {ys : List β}
    (h : xs.mapM f = .ok ys) {y : β} (hy : y ∈ ys) : ∃ x ∈ xs, f x = .ok y := by
  obtain ⟨k, hk⟩ := List.getElem?_of_mem hy
  have hlt : k < xs.length := by
    rw [← length_of_mapM_eq_ok h]
    exact (List.getElem?_eq_some_iff.mp hk).1
  obtain ⟨y', hfy, hy'⟩ := mapM_eq_ok_get h (List.getElem?_eq_getElem hlt)
  rw [hk] at hy'
  cases hy'
  exact ⟨_, List.getElem_mem hlt, hfy⟩

end Binding

/-- The slots of an execution are served by its streams. -/
structure Context.Served (c : Context) (inputs outputs : List Stream) : Prop where
  input : ∀ b ∈ c.inputs, ∃ s ∈ inputs, ∃ v, Binding.Serves s v ∧
    Binding.Reaches s v c.instances ∧ b = ⟨s.withOffset v.offset, { v with offset := 0 }⟩
  output : ∀ b, some b ∈ c.outputs → ∃ s, outputs[b.stream]? = some s ∧
    Binding.Serves s b.view ∧ Binding.Reaches s b.view c.instances

/-- The parts of a bound program are bound one by one. -/
theorem Machine.bind_eq_ok {m : Machine} {p : Program} {inputs outputs : List Stream}
    {instances : Nat} {globals : Globals} {c : Context}
    (h : m.bind p inputs outputs instances globals = .ok c) :
    Binding.bindInputs m.flags p inputs instances = .ok c.inputs ∧
      Binding.bindOutputs m.flags p outputs instances = .ok c.outputs ∧
      Binding.bindFunctions m.functions p = .ok c.functions ∧
      c.instances = instances ∧ c.globals = globals := by
  unfold Machine.bind at h
  obtain ⟨_, hinputs, h⟩ := LaneGraph.bind_eq_ok.mp h
  obtain ⟨_, houtputs, h⟩ := LaneGraph.bind_eq_ok.mp h
  obtain ⟨_, hfunctions, h⟩ := LaneGraph.bind_eq_ok.mp h
  cases h
  exact ⟨hinputs, houtputs, hfunctions, rfl, rfl⟩

/-- Binding serves every slot. -/
theorem Machine.bind_served {m : Machine} {p : Program} {inputs outputs : List Stream}
    {instances : Nat} {globals : Globals} {c : Context}
    (h : m.bind p inputs outputs instances globals = .ok c) : c.Served inputs outputs := by
  obtain ⟨hinputs, houtputs, -, hinstances, -⟩ := Machine.bind_eq_ok h
  constructor
  · intro b hb
    obtain ⟨found, hfound, hmap⟩ := LaneGraph.bind_eq_ok.mp hinputs
    obtain ⟨⟨slot, place⟩, hmem, hslot⟩ := Binding.mem_of_mapM_eq_ok hmap hb
    rw [hinstances]
    refine Binding.bindInput_eq_ok (fun q hq => ?_) hslot
    exact Binding.places_fit hfound q (hq ▸ (List.of_mem_zip hmem).2)
  · intro b hb
    obtain ⟨found, hfound, hmap⟩ := LaneGraph.bind_eq_ok.mp houtputs
    obtain ⟨⟨slot, place⟩, hmem, hslot⟩ := Binding.mem_of_mapM_eq_ok hmap hb
    rw [hinstances]
    refine Binding.bindOutput_eq_ok (fun q hq => ?_) hslot
    exact Binding.places_fit hfound q (hq ▸ (List.of_mem_zip hmem).2)

/-- The state in which a program starts. -/
def Program.start (p : Program) (outputs : List Stream) (batches : Nat) : State batches where
  registers := Array.replicate p.registerCount (Vector.replicate batches Lanes.zero)
  outputs := outputs.toArray

section

variable {m : Machine} {p : Program} {inputs outputs : List Stream} {instances : Nat}
  {globals : Globals}

/-- A bound program whose registers can be addressed is run. -/
theorem Machine.execute_of_bind {c : Context} (hpos : 1 ≤ instances)
    (hbind : m.bind p inputs outputs instances globals = .ok c)
    (hregisters : p.registerCount * batchCount instances < cellLimit) :
    (m.execute p inputs outputs instances globals).1 =
      ⟨(c.run (p.start outputs (batchCount instances)) p.instructions).2,
        (c.run (p.start outputs (batchCount instances)) p.instructions).1.outputs.toList⟩ := by
  unfold Machine.execute
  rw [if_neg (by omega), hbind]
  dsimp only
  rw [if_neg (by omega)]
  rfl

/-- An execution without error was bound, and its registers could be addressed. -/
theorem Machine.bound_of_execute (hpos : 1 ≤ instances)
    (hok : (m.execute p inputs outputs instances globals).1.error = none) :
    ∃ c, m.bind p inputs outputs instances globals = .ok c ∧
      p.registerCount * batchCount instances < cellLimit := by
  unfold Machine.execute at hok
  rw [if_neg (by omega)] at hok
  cases hc : m.bind p inputs outputs instances globals with
  | error e =>
    rw [hc] at hok
    cases hok
  | ok c =>
    rw [hc] at hok
    dsimp only at hok
    refine ⟨c, rfl, Nat.lt_of_not_le fun hlarge => ?_⟩
    rw [if_pos hlarge] at hok
    cases hok

end

end LaneGraph
