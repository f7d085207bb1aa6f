import LaneGraph.Compiler
import LaneGraph.Proofs.Allocation
import LaneGraph.Proofs.Binding
import Mathlib

/-!
# The binding modes agree

A slot that is served by a component of a vector stream reads what it would read
from a scalar stream of its own, whose buffer is the same one with the bytes before
the component skipped. If every slot is given such a stream, in the order of the
slots, then splitting vectors, matching names without splitting and matching
positions bind the same elements.
-/

namespace LaneGraph

/-- The scalar stream of a name that carries one component of a stream, or the whole
of a scalar stream: the same buffer and stride, the bytes before the component
skipped. -/
def Stream.alone (s : Stream) (name : String) (component : Option Component) : Stream :=
  { s.withOffset (((component.map Component.index).getD 0) * s.channel.format.encoding.size) with
    channel := ⟨name, s.channel.format.scalar⟩ }

/-- The stream has the name that was asked for. -/
@[simp]
theorem Stream.alone_name (s : Stream) (name : String) (component : Option Component) :
    (s.alone name component).channel.name = name := rfl

namespace Binding

/-- The stream that serves a slot by name, with the component it takes if it is a
vector stream. -/
def source? (streams : List Stream) (slot : Channel) : Option (Stream × Option Component) :=
  (locate? .userFriendly (streams.map (·.channel)) slot).bind fun p =>
    (streams[p.stream]?).map fun s => (s, p.component)

/-- What serves a slot by name, as a scalar stream of the slot's own name. -/
def scalarStream? (streams : List Stream) (slot : Channel) : Option Stream :=
  (source? streams slot).map fun (s, component) => s.alone slot.name component

/-- What serves the slots of a program by name, as scalar streams in the order of the
slots. -/
def scalarStreams (p : Program) (streams : List Stream) : List Stream :=
  p.inputs.filterMap (scalarStream? streams)

/-- All elements of a scalar stream. -/
def BoundInput.whole (s : Stream) : BoundInput :=
  ⟨s.withOffset 0, ⟨0, s.stride, s.channel.format.encoding⟩⟩

/-- Two bound slots hold elements for some instances, with the same lane patterns. -/
structure BoundInput.Agree (instances : Nat) (b b' : BoundInput) : Prop where
  inBounds : b.view.allInBounds b.stream.length instances = true
  inBounds' : b'.view.allInBounds b'.stream.length instances = true
  read : ∀ i < instances, b'.view.read b'.stream i = b.view.read b.stream i

/-! ## Lists of results -/

/-- Where every entry is kept, positions stay. -/
theorem getElem?_filterMap_of_isSome {α β : Type} {f : α → Option β} {xs : List α}
    (h : ∀ x ∈ xs, (f x).isSome) (k : Nat) : (xs.filterMap f)[k]? = xs[k]?.bind f := by
  induction xs generalizing k with
  | nil => simp
  | cons x rest ih =>
    obtain ⟨y, hy⟩ := Option.isSome_iff_exists.mp (h x List.mem_cons_self)
    rw [List.filterMap_cons, hy]
    cases k with
    | zero => simp [hy]
    | succ k => simpa using ih (fun z hz => h z (List.mem_cons_of_mem _ hz)) k

/-- If every entry is kept as something related to its partner, what is kept is related
to the partners. -/
theorem forall₂_filterMap {α β γ : Type} {f : α → Option γ} {R : β → γ → Prop} {xs : List α}
    {ys : List β} (h : List.Forall₂ (fun x y => ∃ z, f x = some z ∧ R y z) xs ys) :
    List.Forall₂ R ys (xs.filterMap f) := by
  induction h with
  | nil => exact .nil
  | cons hx _ ih =>
    obtain ⟨z, hz, hrelated⟩ := hx
    rw [List.filterMap_cons, hz]
    exact .cons hrelated ih

/-! ## Where slots are found -/

variable {streams : List Stream} {slot slot' : Channel} {flags : ExecuteFlags} {instances : Nat}

/-- Slots of one name are found at one place. -/
theorem locate?_congr (h : slot.name = slot'.name) (channels : List Channel) :
    locate? flags channels slot = locate? flags channels slot' := by
  unfold locate?
  rw [h]

/-- Slots of one name are served by one scalar stream. -/
theorem scalarStream?_congr (h : slot.name = slot'.name) :
    scalarStream? streams slot = scalarStream? streams slot' := by
  unfold scalarStream? source?
  rw [locate?_congr h, h]

/-- The scalar stream of a slot has its name. -/
theorem name_of_scalarStream? {t : Stream} (h : scalarStream? streams slot = some t) :
    t.channel.name = slot.name := by
  obtain ⟨⟨s, component⟩, -, rfl⟩ := Option.map_eq_some_iff.mp h
  exact s.alone_name slot.name component

/-- Of the flags, only the splitting of vectors matters to where a slot is found. -/
theorem locate?_of_splitVectors (h : flags.splitVectors = true) (channels : List Channel) :
    locate? flags channels slot = locate? .userFriendly channels slot := by
  unfold locate?
  rw [h]
  rfl

/-- A component is found under the name that was made for it, whatever points the name
of the stream has. -/
theorem componentName?_component (channel : Channel) (c : Component) :
    componentName? (channel.component c).name = some (channel.name, c) := by
  unfold componentName? Channel.component
  cases c <;>
    simp [String.toList_append, Component.letter, Component.ofLetter?, String.ofList_toList]

/-- A slot with a scalar stream among those of all slots is found there by its name,
with or without splitting vectors. -/
theorem locate?_scalarStreams {p : Program} (flags : ExecuteFlags)
    (hall : ∀ slot ∈ p.inputs, (scalarStream? streams slot).isSome) (hslot : slot ∈ p.inputs) :
    ∃ j, locate? flags ((scalarStreams p streams).map (·.channel)) slot = some ⟨j, none⟩ ∧
      (scalarStreams p streams)[j]? = scalarStream? streams slot := by
  obtain ⟨t, ht⟩ := Option.isSome_iff_exists.mp (hall slot hslot)
  have hmem : t.channel ∈ (scalarStreams p streams).map (·.channel) :=
    List.mem_map_of_mem (List.mem_filterMap.mpr ⟨slot, hslot, ht⟩)
  cases hj : ((scalarStreams p streams).map (·.channel)).findIdx? (·.name == slot.name) with
  | none =>
    have hne := List.findIdx?_eq_none_iff.mp hj _ hmem
    rw [name_of_scalarStream? ht, beq_self_eq_true] at hne
    cases hne
  | some j =>
    refine ⟨j, by unfold locate?; rw [hj], ?_⟩
    obtain ⟨hlt, hname, -⟩ := List.findIdx?_eq_some_iff_getElem.mp hj
    rw [List.length_map] at hlt
    rw [List.getElem_map, beq_iff_eq] at hname
    -- The stream at this place was made for a slot of the same name.
    obtain ⟨slot', -, hslot'⟩ := List.mem_filterMap.mp (List.getElem_mem hlt)
    rw [List.getElem?_eq_getElem hlt, ← hslot']
    exact scalarStream?_congr ((name_of_scalarStream? hslot').symm.trans hname)

/-! ## What the elements are -/

/-- A slot that is bound to some elements of a stream is bound to the same elements when
these are a stream of their own. -/
theorem view_alone {component : Option Component} {s : Stream} {v : ElementView}
    (hfits : ∀ c, component = some c → c.index < s.channel.format.count) (hpos : 1 ≤ instances)
    (h : view .faults slot component s instances = .ok v) (name : String) :
    view .faults slot none (s.alone name component) instances = .ok { v with offset := 0 } ∧
      BoundInput.Agree instances ⟨s.withOffset v.offset, { v with offset := 0 }⟩
        (.whole (s.alone name component)) := by
  obtain ⟨-, hreaches⟩ := view_eq_ok h hfits
  obtain ⟨rfl, hkind, -⟩ := view_elements h
  -- The elements that are left begin at the first visible byte.
  have halone : Reaches (s.alone name component) ⟨0, s.stride, s.channel.format.encoding⟩
      instances := hreaches.skipped
  have hwhole : (s.alone name component).withOffset 0 = s.alone name component := by
    simp [Stream.withOffset, Stream.alone]
  refine ⟨view_of_reaches hpos ?_ hkind (fun _ => rfl) halone, hreaches.skipped.allInBounds, ?_,
    fun i _ => ?_⟩
  · simp [Stream.alone, Stream.withOffset, Format.scalar, Format.of]
  · rw [BoundInput.whole, hwhole]
    exact halone.allInBounds
  · rw [BoundInput.whole, hwhole]
    rfl

/-- A bound slot holds the elements of the stream that serves it by name. -/
def Supplies (streams : List Stream) (instances : Nat) (slot : Channel) (b : BoundInput) : Prop :=
  ∃ q s v, locate? .userFriendly (streams.map (·.channel)) slot = some q ∧
    streams[q.stream]? = some s ∧ view .faults slot q.component s instances = .ok v ∧
    b = ⟨s.withOffset v.offset, { v with offset := 0 }⟩

/-- Slots that are bound by name with vectors split are supplied. -/
theorem supplies_of_bindInputs {p : Program} {bound : List BoundInput}
    (hname : flags.byName = true) (hsplit : flags.splitVectors = true)
    (h : bindInputs flags p streams instances = .ok bound) :
    List.Forall₂ (Supplies streams instances) p.inputs bound := by
  obtain ⟨found, hfound, hmap⟩ := LaneGraph.bind_eq_ok.mp h
  unfold places at hfound
  rw [if_pos hname] at hfound
  cases hfound
  have hzip : p.inputs.zip (p.inputs.map (locate? flags (streams.map (·.channel)))) =
      p.inputs.map fun slot => (slot, locate? flags (streams.map (·.channel)) slot) := by
    simpa using List.zip_map' (l := p.inputs) (f := id)
      (g := locate? flags (streams.map (·.channel)))
  rw [hzip, mapM_eq_ok_iff, List.forall₂_map_left_iff] at hmap
  refine hmap.imp fun {slot b} hb => ?_
  dsimp only at hb
  unfold bindInput at hb
  split at hb
  · cases hb
  · rename_i q s hplace
    obtain ⟨hq, hs⟩ := place_eq_some hplace
    obtain ⟨v, hv, hb⟩ := LaneGraph.bind_eq_ok.mp hb
    cases hb
    rw [locate?_of_splitVectors hsplit] at hq
    exact ⟨q, s, v, hq, hs, hv, rfl⟩

/-- What a supplied slot holds, it holds as a scalar stream of its own. -/
theorem Supplies.alone {b : BoundInput} (h : Supplies streams instances slot b)
    (hpos : 1 ≤ instances) :
    ∃ t, scalarStream? streams slot = some t ∧
      view .faults slot none t instances = .ok ⟨0, t.stride, t.channel.format.encoding⟩ ∧
      BoundInput.Agree instances b (.whole t) := by
  obtain ⟨q, s, v, hq, hs, hv, rfl⟩ := h
  have hfits := (locate?_fits hq).component hs
  obtain ⟨hserves, -⟩ := view_eq_ok hv hfits
  obtain ⟨hview, hagree⟩ := view_alone hfits hpos hv slot.name
  refine ⟨s.alone slot.name q.component, ?_, ?_, hagree⟩
  · unfold scalarStream? source?
    rw [hq, Option.bind_some, hs]
    rfl
  · rw [hview, hserves.stride, hserves.encoding]
    rfl

/-- A supplied slot that is named like a component, and like no stream, is served by this
component of a stream with the name before the last point. -/
theorem Supplies.component {b : BoundInput} (h : Supplies streams instances slot b)
    {channel : Channel} {c : Component} (hslot : slot.name = (channel.component c).name)
    (hother : ∀ s ∈ streams, s.channel.name ≠ slot.name) :
    ∃ s ∈ streams, s.channel.name = channel.name ∧ c.index < s.channel.format.count ∧
      b = ⟨s.withOffset (c.index * s.channel.format.encoding.size),
        ⟨0, s.stride, s.channel.format.encoding⟩⟩ := by
  obtain ⟨q, s, v, hq, hs, hv, rfl⟩ := h
  have hmem := List.mem_of_getElem? hs
  have hnone : (streams.map (·.channel)).findIdx? (·.name == slot.name) = none := by
    refine List.findIdx?_eq_none_iff.mpr fun d hd => ?_
    obtain ⟨s', hs', rfl⟩ := List.mem_map.mp hd
    exact beq_false_of_ne (hother s' hs')
  unfold locate? at hq
  rw [hnone, hslot, componentName?_component] at hq
  obtain ⟨j, hj, rfl⟩ := Option.map_eq_some_iff.mp hq
  obtain ⟨hlt, hfound, -⟩ := List.findIdx?_eq_some_iff_getElem.mp hj
  rw [List.length_map] at hlt
  rw [List.getElem?_eq_getElem hlt] at hs
  cases hs
  rw [List.getElem_map, Bool.and_eq_true, beq_iff_eq, decide_eq_true_eq] at hfound
  refine ⟨_, hmem, hfound.1, hfound.2, ?_⟩
  obtain ⟨rfl, -⟩ := view_elements hv
  rfl

/-- The scalar streams of bound slots are bound to these, however slots are matched. -/
theorem bindInputs_of_scalar {p : Program}
    (hall : ∀ slot ∈ p.inputs, ∃ t, scalarStream? streams slot = some t ∧
      view .faults slot none t instances = .ok ⟨0, t.stride, t.channel.format.encoding⟩) :
    bindInputs flags p (scalarStreams p streams) instances =
      .ok ((scalarStreams p streams).map .whole) := by
  have hsome : ∀ slot ∈ p.inputs, (scalarStream? streams slot).isSome := fun slot hslot =>
    let ⟨_, ht, _⟩ := hall slot hslot
    Option.isSome_iff_exists.mpr ⟨_, ht⟩
  have hget : ∀ k, (scalarStreams p streams)[k]? = p.inputs[k]?.bind (scalarStream? streams) :=
    getElem?_filterMap_of_isSome hsome
  have hlength : (scalarStreams p streams).length = p.inputs.length := by
    unfold scalarStreams
    rw [List.length_filterMap_eq_countP]
    exact List.countP_eq_length.mpr hsome
  -- Both ways of matching find the scalar stream of the slot.
  obtain ⟨found, hfound, hlength', hplace⟩ : ∃ found,
      places .input flags false ((scalarStreams p streams).map (·.channel)) p.inputs = .ok found ∧
      found.length = p.inputs.length ∧ ∀ k slot, p.inputs[k]? = some slot → ∃ j,
        found[k]? = some (some (Place.mk j none)) ∧
          (scalarStreams p streams)[j]? = scalarStream? streams slot := by
    unfold places
    split
    · refine ⟨_, rfl, List.length_map _, fun k slot hk => ?_⟩
      obtain ⟨j, hj, ht⟩ := locate?_scalarStreams flags hsome (List.mem_of_getElem? hk)
      exact ⟨j, by rw [List.getElem?_map, hk, Option.map_some, hj], ht⟩
    · dsimp only
      rw [List.length_map]
      refine ⟨_, if_pos (by simpa using hlength), by rw [List.length_map, List.length_range],
        fun k slot hk => ?_⟩
      obtain ⟨hlt, -⟩ := List.getElem?_eq_some_iff.mp hk
      refine ⟨k, ?_, by rw [hget, hk, Option.bind_some]⟩
      rw [List.getElem?_map, List.getElem?_range hlt, Option.map_some, if_pos (hlength ▸ hlt)]
  refine LaneGraph.bind_eq_ok.mpr ⟨found, hfound, ?_⟩
  rw [mapM_eq_ok_iff]
  refine List.forall₂_iff_get.mpr ⟨by simp [hlength, hlength'], fun k hk _ => ?_⟩
  rw [List.length_zip, hlength', Nat.min_self] at hk
  obtain ⟨t, ht, hview⟩ := hall _ (List.getElem_mem hk)
  obtain ⟨j, hj, hstream⟩ := hplace k _ (List.getElem?_eq_getElem hk)
  obtain ⟨_, hj⟩ := List.getElem?_eq_some_iff.mp hj
  have hk' : k < (scalarStreams p streams).length := hlength ▸ hk
  have htk : (scalarStreams p streams)[k] = t := by
    have hstream' := hget k
    rw [List.getElem?_eq_getElem hk', List.getElem?_eq_getElem hk, Option.bind_some,
      ht] at hstream'
    exact Option.some.inj hstream'
  simp only [List.get_eq_getElem, List.getElem_zip, List.getElem_map, hj, htk]
  unfold bindInput
  rw [Option.bind_some, hstream, ht]
  exact LaneGraph.bind_eq_ok.mpr ⟨_, hview, rfl⟩

/-- The binding modes agree. Where the slots of a program are bound by name with vectors
split, let each slot have a scalar stream of its own name instead, with the bytes before
its component skipped and the stride kept. Then these streams, in the order of the slots,
are bound however slots are matched: by name with or without splitting, and by position.
The slots hold elements for all instances, and read the same lane patterns as before. In
particular a slot that is named like a component, and like no stream, is served by that
component of the stream with the name before the last point. -/
theorem bindInputs_scalarStreams (p : Program) (streams : List Stream) (instances : Nat)
    (flags : ExecuteFlags) (hname : flags.byName = true) (hsplit : flags.splitVectors = true)
    (hpos : 1 ≤ instances) (hdistinct : (streams.map (·.channel.name)).Nodup)
    (bound : List BoundInput)
    (h : bindInputs flags p streams instances = .ok bound) :
    (∃ bound', (∀ flags' : ExecuteFlags,
        bindInputs flags' p (scalarStreams p streams) instances = .ok bound') ∧
      List.Forall₂ (BoundInput.Agree instances) bound bound') ∧
    ∀ (k : Nat) (slot channel : Channel) (c : Component), p.inputs[k]? = some slot →
      slot.name = (channel.component c).name → (∀ s ∈ streams, s.channel.name ≠ slot.name) →
      ∃ s ∈ streams, s.channel.name = channel.name ∧
        (∀ s' ∈ streams, s'.channel.name = channel.name → s' = s) ∧
        c.index < s.channel.format.count ∧
        bound[k]? = some ⟨s.withOffset (c.index * s.channel.format.encoding.size),
          ⟨0, s.stride, s.channel.format.encoding⟩⟩ := by
  have hsupplies := supplies_of_bindInputs hname hsplit h
  constructor
  · have halone := hsupplies.imp fun {_ _} hb => hb.alone hpos
    refine ⟨(scalarStreams p streams).map .whole, fun flags' => bindInputs_of_scalar ?_, ?_⟩
    · intro slot hslot
      obtain ⟨k, hk, rfl⟩ := List.getElem_of_mem hslot
      obtain ⟨hlength, hget⟩ := List.forall₂_iff_get.mp halone
      obtain ⟨t, ht, hview, -⟩ := hget k hk (hlength ▸ hk)
      exact ⟨t, ht, hview⟩
    · rw [List.forall₂_map_right_iff]
      exact forall₂_filterMap (halone.imp fun {_ _} ⟨t, ht, _, hagree⟩ => ⟨t, ht, hagree⟩)
  · intro k slot channel c hk hslot hother
    obtain ⟨hlt, rfl⟩ := List.getElem?_eq_some_iff.mp hk
    obtain ⟨hlength, hget⟩ := List.forall₂_iff_get.mp hsupplies
    obtain ⟨s, hs, hchannel, hindex, hb⟩ :=
      (hget k hlt (hlength ▸ hlt)).component hslot hother
    refine ⟨s, hs, hchannel, fun s' hs' hchannel' => ?_, hindex, ?_⟩
    · exact List.inj_on_of_nodup_map hdistinct hs' hs (hchannel'.trans hchannel.symm)
    · rw [List.getElem?_eq_getElem (hlength ▸ hlt)]
      exact congrArg some hb

end Binding

namespace LastComponent

/-- A stream with four components is read. -/
def vector : Graph := ((Build.input ⟨"v", .of .int 4⟩).runOn {}).2

/-- Its last component is selected. -/
def selection : Graph := ((Build.swizzle [.w] 0).runOn vector).2

/-- The component is written. -/
def graph : Graph := ((Build.output ⟨"o", .of .int 1⟩ 1).runOn selection).2

/-- The program reads one scalar stream. -/
def program : Program where
  code := [94, 0, 0, 96, 0, 0]
  inputs := [⟨"v.w", .of .int 1⟩]
  outputs := [⟨"o", .of .int 1⟩]
  instructionCount := 2
  registerCount := 1

/-- The graph is compiled. -/
theorem compiled : (Compiler.compile {} graph).1 = .ok program := by
  unfold Compiler.compile Compiler.allocate Allocation.ofIntervals
  rw [Allocation.byStart_eq]
  decide +kernel

/-- A packed stream of two values. -/
def packed : Stream :=
  Stream.ofBytes ⟨"v", .of .int 4⟩ ((Array.range 32).map UInt8.ofNat)

end LastComponent

namespace Binding

open LastComponent in
/-- The last components of two values are bound as components and as a scalar stream. -/
theorem bindInputs_scalarStreams_packed :
    (Compiler.compile {} graph).1 = .ok program ∧
    (∃ bound, bindInputs .userFriendly program [packed] 2 = .ok bound ∧
      (∃ bound', (∀ flags' : ExecuteFlags,
          bindInputs flags' program (scalarStreams program [packed]) 2 = .ok bound') ∧
        List.Forall₂ (BoundInput.Agree 2) bound bound') ∧
      bound[0]? = some ⟨packed.withOffset 12, ⟨0, 16, .int⟩⟩) := by
  have hbound : bindInputs .userFriendly program [packed] 2 =
      .ok [⟨packed.withOffset 12, ⟨0, 16, .int⟩⟩] := by decide +kernel
  have hagree := bindInputs_scalarStreams program [packed] 2 .userFriendly rfl rfl (by decide)
    (by decide) _ hbound
  obtain ⟨s, hs, -, -, -, hserved⟩ := hagree.2 0 ⟨"v.w", .of .int 1⟩ packed.channel .w rfl rfl
    fun s hs => by cases List.mem_singleton.mp hs; decide
  cases List.mem_singleton.mp hs
  exact ⟨compiled, _, hbound, hagree.1, hserved⟩

end Binding

end LaneGraph
