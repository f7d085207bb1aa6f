import LaneGraph.Proofs.Programs
import LaneGraph.Proofs.Safety
import Mathlib.Data.List.Forall2

/-!
# Instances do not influence each other

A run over many instances does for each of them what a run over fewer instances
does, started at a later position of every stream. The two runs are carried out
side by side: the lanes of common instances agree in all registers, and the
values of common instances have the same bytes in all output streams. Every
instruction keeps this, so neither batches nor chunks can be seen in the result.
-/

namespace LaneGraph

/-- The stream from a later instance on. -/
def Stream.advance (s : Stream) (first : Nat) : Stream := s.withOffset (first * s.stride)

/-- The bytes of the value that a stream holds for an instance. -/
def Stream.valueBytes (s : Stream) (i : Nat) : List UInt8 :=
  (s.bytes.extract (s.start + i * s.stride)
    (s.start + i * s.stride + s.channel.format.size)).toList

/-- The function works lane by lane. -/
def Native.LaneByLane (f : Native) : Prop := ∃ g, f = Native.ofLanes g

/-- A function made to work lane by lane does. -/
theorem Native.laneByLane_ofLanes (f : List UInt32 → Globals → UInt32) :
    (ofLanes f).LaneByLane :=
  ⟨f, rfl⟩

/-- The functions that every machine starts with work lane by lane. -/
theorem Function.builtins_laneByLane : ∀ f ∈ builtins, f.native.LaneByLane := by
  intro f hf
  simp only [builtins, List.mem_cons, List.not_mem_nil, or_false] at hf
  rcases hf with rfl | rfl
  · unfold random Native.random Native.seeded
    dsimp only
    exact Native.laneByLane_ofLanes _
  · unfold randomInt Native.randomInt Native.seeded
    dsimp only
    exact Native.laneByLane_ofLanes _

/-- Sums, multiples by a global number, global values and counts of arguments, which a
program may add to these, work lane by lane too. -/
theorem Native.laneByLane_of_mem (name : String) {f : Native}
    (h : f ∈ [sumFloats, sumInts, scaledBy name, globalValue name, argumentCount]) :
    f.LaneByLane := by
  simp only [List.mem_cons, List.not_mem_nil, or_false] at h
  rcases h with rfl | rfl | rfl | rfl | rfl <;> exact Native.laneByLane_ofLanes _

/-! ## Binding advanced streams -/

section

variable {s : Stream} {v : ElementView} {instances first count : Nat}

/-- An advanced stream is served by the same elements. -/
theorem Binding.Serves.advance (h : Binding.Serves s v) (first : Nat) :
    Binding.Serves (s.advance first) v :=
  ⟨h.stride, h.encoding, h.within⟩

/-- The instances before a part and those of the part follow one another. -/
theorem stride_add_le (stride : Nat) (hcount : 1 ≤ count) (hle : first + count ≤ instances) :
    first * stride + (count - 1) * stride ≤ (instances - 1) * stride := by
  rw [← Nat.add_mul]
  exact Nat.mul_le_mul_right _ (by omega)

/-- An advanced stream is long enough for the instances that are left. -/
theorem Binding.Serves.reaches_advance (h : Binding.Serves s v)
    (hreaches : Binding.Reaches s v instances) (hle : first + count ≤ instances) :
    Binding.Reaches (s.advance first) v count := by
  intro hcount
  obtain ⟨haddressed, hend⟩ := hreaches (by omega)
  have hmono := v.reach_mono (show count ≤ instances by omega)
  have hparts := stride_add_le s.stride hcount hle
  refine ⟨by omega, ?_⟩
  unfold Stream.advance
  rw [Stream.length_withOffset]
  unfold ElementView.reach at hend ⊢
  rw [h.stride] at hend ⊢
  omega

/-- Nothing is cut off where a served stream is advanced. -/
theorem Binding.Serves.start_advance (h : Binding.Serves s v)
    (hreaches : Binding.Reaches s v instances) (hlt : first < instances) :
    (s.advance first).start = s.start + first * s.stride ∧
      s.start + first * s.stride + v.offset + v.encoding.size ≤ s.bytes.size := by
  have hend := (hreaches (by omega)).2
  have hstride : first * s.stride ≤ (instances - 1) * s.stride :=
    Nat.mul_le_mul_right _ (by omega)
  have hsize : 0 < v.encoding.size := by cases v.encoding <;> decide
  unfold ElementView.reach Stream.length at hend
  rw [h.stride] at hend
  unfold Stream.advance Stream.withOffset
  dsimp only
  omega

end

namespace Binding

/-- A slot is served by the same elements of an advanced stream. -/
theorem view_advance {slot : Channel} {component : Option Component} {s : Stream}
    {v : ElementView} {instances first count : Nat}
    (hfits : ∀ c, component = some c → c.index < s.channel.format.count) (hcount : 1 ≤ count)
    (hle : first + count ≤ instances) (h : view .faults slot component s instances = .ok v) :
    view .faults slot component (s.advance first) count = .ok v := by
  obtain ⟨hserves, hreaches⟩ := view_eq_ok h hfits
  obtain ⟨hv, hkind, hscalar⟩ := view_elements h
  exact view_of_reaches hcount hv hkind hscalar (hserves.reaches_advance hreaches hle)

/-- Where related computations for a list succeed, their results are related. -/
theorem mapM_related {ε α β γ : Type} {f : α → Except ε β} (f' : α → Except ε γ)
    {R : β → γ → Prop} {xs : List α}
    (h : ∀ x ∈ xs, ∀ y, f x = .ok y → ∃ y', f' x = .ok y' ∧ R y y') {ys : List β}
    (hys : xs.mapM f = .ok ys) : ∃ ys', xs.mapM f' = .ok ys' ∧ List.Forall₂ R ys ys' := by
  induction xs generalizing ys with
  | nil =>
    cases hys
    exact ⟨[], rfl, .nil⟩
  | cons x rest ih =>
    rw [List.mapM_cons] at hys
    obtain ⟨y, hy, hys⟩ := bind_eq_ok.mp hys
    obtain ⟨ys₁, hys₁, hys⟩ := bind_eq_ok.mp hys
    cases hys
    obtain ⟨y', hy', hrelated⟩ := h x List.mem_cons_self y hy
    obtain ⟨ys', hys', hall⟩ := ih (fun z hz => h z (List.mem_cons_of_mem _ hz)) hys₁
    refine ⟨y' :: ys', ?_, .cons hrelated hall⟩
    rw [List.mapM_cons, hy', hys']
    rfl

/-- An input slot of a part of the instances reads what the slot of all instances
reads for them. -/
structure InputPart (first count : Nat) (b b' : BoundInput) : Prop where
  view : b'.view = b.view
  inBounds : b'.view.allInBounds b'.stream.length count = true
  read : ∀ j < count, b'.view.read b'.stream j = b.view.read b.stream (first + j)

/-- The elements of a stream from a later instance on are those of the stream. -/
theorem inputPart_advance {s : Stream} {v : ElementView} {instances first count : Nat}
    (hserves : Serves s v) (hreaches : Reaches s v instances) (hcount : 1 ≤ count)
    (hle : first + count ≤ instances) :
    InputPart first count ⟨s.withOffset v.offset, { v with offset := 0 }⟩
      ⟨(s.advance first).withOffset v.offset, { v with offset := 0 }⟩ := by
  refine ⟨rfl, (hserves.reaches_advance hreaches hle).skipped.allInBounds, fun j hj => ?_⟩
  obtain ⟨hstart, hsize⟩ := hserves.start_advance hreaches (show first < instances by omega)
  have hstart' : (s.advance first).start + v.offset ≤ s.bytes.size := by
    rw [hstart]
    omega
  have hmin : ((s.advance first).withOffset v.offset).start =
      (s.advance first).start + v.offset := Nat.min_eq_left hstart'
  have hmin' : (s.withOffset v.offset).start = s.start + v.offset := Nat.min_eq_left (by omega)
  have hsame : ((s.advance first).withOffset v.offset).start + (0 + j * v.stride) =
      (s.withOffset v.offset).start + (0 + (first + j) * v.stride) := by
    rw [hmin, hmin', hstart, hserves.stride, Nat.add_mul]
    omega
  have hbytes : ((s.advance first).withOffset v.offset).bytes = (s.withOffset v.offset).bytes :=
    rfl
  unfold ElementView.read ElementView.position
  dsimp only
  rw [hsame, hbytes]

end Binding

/-- What two executions have in common when one of them is a part of the other. -/
structure Context.Part (first count : Nat) (c c' : Context) : Prop where
  instances : c'.instances = count
  outputs : c'.outputs = c.outputs
  functions : c'.functions = c.functions
  globals : c'.globals = c.globals
  inputs : List.Forall₂ (Binding.InputPart first count) c.inputs c'.inputs

/-- A program that is bound for all instances is bound for a part of them. -/
theorem Machine.bind_advance {m : Machine} {p : Program} {inputs outputs : List Stream}
    {instances first count : Nat} {globals : Globals} {c : Context}
    (hcount : 1 ≤ count) (hle : first + count ≤ instances)
    (h : m.bind p inputs outputs instances globals = .ok c) :
    ∃ c', m.bind p (inputs.map (·.advance first)) (outputs.map (·.advance first)) count globals =
      .ok c' ∧ c.Part first count c' := by
  obtain ⟨hinputs, houtputs, hfunctions, -, hglobals⟩ := Machine.bind_eq_ok h
  have hchannels : ∀ streams : List Stream,
      (streams.map (·.advance first)).map (·.channel) = streams.map (·.channel) := by
    intro streams
    rw [List.map_map]
    rfl
  obtain ⟨found, hfound, hmap⟩ := LaneGraph.bind_eq_ok.mp hinputs
  obtain ⟨ys, hys, hrelated⟩ := Binding.mapM_related (R := Binding.InputPart first count)
    (fun x => Binding.bindInput (inputs.map (·.advance first)) count x.1 x.2) (by
      rintro ⟨slot, place⟩ hmem b hb
      dsimp only at hb ⊢
      unfold Binding.bindInput at hb ⊢
      split at hb
      · cases hb
      · rename_i q s hplace
        obtain ⟨hq, hs⟩ := Binding.place_eq_some hplace
        have hfits := (Binding.places_fit hfound q (hq ▸ (List.of_mem_zip hmem).2)).component hs
        obtain ⟨v, hv, hb⟩ := LaneGraph.bind_eq_ok.mp hb
        cases hb
        obtain ⟨hserves, hreaches⟩ := Binding.view_eq_ok hv hfits
        have hv' := Binding.view_advance hfits hcount hle hv
        refine ⟨⟨(s.advance first).withOffset v.offset, { v with offset := 0 }⟩, ?_,
          Binding.inputPart_advance hserves hreaches hcount hle⟩
        rw [hq, Option.bind_some, List.getElem?_map, hs]
        exact LaneGraph.bind_eq_ok.mpr ⟨v, hv', rfl⟩) hmap
  obtain ⟨found', hfound', hmap'⟩ := LaneGraph.bind_eq_ok.mp houtputs
  obtain ⟨zs, hzs, hsame⟩ := Binding.mapM_related (R := Eq)
    (fun x => Binding.bindOutput m.flags (outputs.map (·.advance first)) count x.1 x.2) (by
      rintro ⟨slot, place⟩ hmem b hb
      refine ⟨b, ?_, rfl⟩
      dsimp only at hb ⊢
      unfold Binding.bindOutput at hb ⊢
      split at hb
      · rename_i hplace
        have hplace' : (place.bind fun q => ((outputs.map (·.advance first))[q.stream]?).map
            fun s => (q, s)) = none := by
          cases place with
          | none => rfl
          | some q =>
            rw [Option.bind_some, Option.map_eq_none_iff] at hplace ⊢
            rw [List.getElem?_map, hplace]
            rfl
        rw [hplace']
        exact hb
      · rename_i q s hplace
        obtain ⟨hq, hs⟩ := Binding.place_eq_some hplace
        have hfits := (Binding.places_fit hfound' q (hq ▸ (List.of_mem_zip hmem).2)).component hs
        obtain ⟨v, hv, hb⟩ := LaneGraph.bind_eq_ok.mp hb
        cases hb
        have hv' := Binding.view_advance hfits hcount hle hv
        rw [hq, Option.bind_some, List.getElem?_map, hs]
        exact LaneGraph.bind_eq_ok.mpr ⟨v, hv', rfl⟩) hmap'
  rw [List.forall₂_eq_eq_eq] at hsame
  subst hsame
  refine ⟨⟨count, ys, c.outputs, c.functions, globals⟩, ?_, rfl, rfl, rfl, hglobals.symm, hrelated⟩
  unfold Machine.bind Binding.bindInputs Binding.bindOutputs
  rw [hchannels, hchannels, hfound, hfound']
  exact LaneGraph.bind_eq_ok.mpr ⟨ys, hys, LaneGraph.bind_eq_ok.mpr ⟨_, hzs,
    LaneGraph.bind_eq_ok.mpr ⟨_, hfunctions, rfl⟩⟩⟩

/-! ## Lanes -/

section

variable {batches : Nat} {i : Nat}

/-- The pattern of an instance is a lane of its batch. -/
theorem instanceBits_eq (x : Column batches) (h : i / 4 < batches) :
    instanceBits x i = x[i / 4].get ⟨i % 4, Nat.mod_lt i (by decide)⟩ := by
  unfold instanceBits
  rw [Vector.getElem?_eq_getElem h]

/-- A function of lanes is applied to every instance. -/
theorem instanceBits_map (f : UInt32 → UInt32) (x : Column batches) (h : i / 4 < batches) :
    instanceBits (x.map (Lanes.map f)) i = f (instanceBits x i) := by
  rw [instanceBits_eq _ h, instanceBits_eq _ h, Vector.getElem_map]
  simp [Lanes.get, Lanes.map]

/-- An operation on lanes is applied to every instance. -/
theorem instanceBits_zip (f : UInt32 → UInt32 → UInt32) (x y : Column batches)
    (h : i / 4 < batches) :
    instanceBits (zipColumns (Lanes.zip f) x y) i = f (instanceBits x i) (instanceBits y i) := by
  unfold zipColumns
  rw [instanceBits_eq _ h, instanceBits_eq _ h, instanceBits_eq _ h, Vector.getElem_zipWith]
  simp [Lanes.get, Lanes.zip]

/-- An operation with a constant is applied to every instance. -/
theorem instanceBits_zipConst (f : UInt32 → UInt32 → UInt32) (x : Column batches) (w : UInt32)
    (h : i / 4 < batches) :
    instanceBits (x.map fun lanes => Lanes.zip f lanes (Lanes.splat w)) i =
      f (instanceBits x i) w := by
  rw [instanceBits_eq _ h, instanceBits_eq _ h, Vector.getElem_map]
  simp [Lanes.get, Lanes.zip, Lanes.splat]

/-- A constant is the pattern of every instance. -/
theorem instanceBits_splat (w : UInt32) (h : i / 4 < batches) :
    instanceBits (Vector.replicate batches (Lanes.splat w)) i = w := by
  rw [instanceBits_eq _ h, Vector.getElem_replicate]
  simp [Lanes.get, Lanes.splat]

/-- Columns computed lane by lane have the lanes of their instances. -/
theorem instanceBits_ofFn (f : Fin batches → Fin 4 → UInt32) (h : i / 4 < batches) :
    instanceBits (Vector.ofFn fun batch => Lanes.ofFn (f batch)) i =
      f ⟨i / 4, h⟩ ⟨i % 4, Nat.mod_lt i (by decide)⟩ := by
  rw [instanceBits_eq _ h, Vector.getElem_ofFn]
  simp [Lanes.get, Lanes.ofFn]

/-- A choice is made for every instance. -/
theorem instanceBits_select (mask x y : Column batches) (h : i / 4 < batches) :
    instanceBits (selectColumns mask x y) i =
      if bitsBool (instanceBits mask i) then instanceBits x i else instanceBits y i := by
  unfold selectColumns Lanes.select
  rw [instanceBits_ofFn _ h, instanceBits_eq mask h, instanceBits_eq x h, instanceBits_eq y h]
  rfl

/-- A load reads the element of every instance, and the last one beyond. -/
theorem instanceBits_loadColumn (instances : Nat) (b : Binding.BoundInput)
    (h : i / 4 < batches) :
    instanceBits (loadColumn batches instances b) i =
      b.view.read b.stream (min i (instances - 1)) := by
  unfold loadColumn
  rw [instanceBits_ofFn _ h]
  dsimp only
  rw [Nat.div_add_mod]

/-- A function that works lane by lane is applied to every instance. -/
theorem instanceBits_ofLanes (f : List UInt32 → Globals → UInt32)
    (arguments : List (Column batches)) (globals : Globals) (h : i / 4 < batches) :
    instanceBits ((Native.ofLanes f).run batches arguments globals) i =
      f (arguments.map fun x => instanceBits x i) globals := by
  unfold Native.ofLanes
  dsimp only
  rw [instanceBits_ofFn _ h]
  congr 1
  exact List.map_congr_left fun x _ => (instanceBits_eq x h).symm

end

/-! ## Stores -/

/-- Storing changes nothing but bytes. -/
theorem storeAll_eq (v : ElementView) (count : Nat) (bits : Nat → UInt32) (s : Stream) :
    storeAll v count bits s = { s with bytes := (storeAll v count bits s).bytes } ∧
      (storeAll v count bits s).bytes.size = s.bytes.size := by
  induction count with
  | zero => exact ⟨rfl, rfl⟩
  | succ count ih =>
    rw [storeAll_succ]
    unfold ElementView.write
    dsimp only
    rw [size_writeBytes]
    refine ⟨?_, ih.2⟩
    have hchannel : (storeAll v count bits s).channel = s.channel := by rw [ih.1]
    have hstart : (storeAll v count bits s).start = s.start := by rw [ih.1]
    have hstride : (storeAll v count bits s).stride = s.stride := by rw [ih.1]
    rw [hchannel, hstart, hstride]

/-- The bytes of values after storing for the first instances: those of an element
that was stored are the bytes of its pattern, and all others stay. -/
theorem getElem?_storeAll {s : Stream} {v : ElementView} {instances : Nat}
    (hserves : Binding.Serves s v) (hreaches : Binding.Reaches s v instances)
    (hspaced : s.channel.format.size ≤ s.stride) (bits : Nat → UInt32) {count : Nat} (hcount : count ≤ instances) (i : Nat) {k : Nat}
    (hk : k < s.channel.format.size) :
    (storeAll v count bits s).bytes[s.start + i * s.stride + k]? =
      if i < count ∧ v.offset ≤ k ∧ k < v.offset + v.encoding.size then
        (v.encoding.encode (bits i))[k - v.offset]?
      else s.bytes[s.start + i * s.stride + k]? := by
  induction count with
  | zero =>
    rw [if_neg (by omega)]
    rfl
  | succ count ih =>
    have hinBounds : v.inBounds (storeAll v count bits s).length count = true := by
      rw [(length_storeAll v count bits s).1]
      exact ElementView.inBounds_of_all hreaches.allInBounds (by omega)
    have hfits := ElementView.end_le_size (bits count) hinBounds
    have hwithin := hserves.within
    have hposition : v.position count = v.offset + count * s.stride := by
      rw [ElementView.position, hserves.stride]
    rw [(length_storeAll v count bits s).2, hposition] at hfits
    rw [storeAll_succ]
    unfold ElementView.write
    dsimp only
    rw [(length_storeAll v count bits s).2, hposition,
      getElem?_writeBytes _ _ _ hfits, Encoding.length_encode, ih (by omega)]
    -- values of different instances lie apart, since a value is no longer than a stride
    rcases Nat.lt_trichotomy i count with hlt | rfl | hgt
    · have hstride : (i + 1) * s.stride ≤ count * s.stride := Nat.mul_le_mul_right _ hlt
      rw [Nat.succ_mul] at hstride
      rw [if_neg (by omega)]
      simp only [hlt, Nat.lt_succ_of_lt hlt]
    · by_cases hin : v.offset ≤ k ∧ k < v.offset + v.encoding.size
      · rw [if_pos (by omega), if_pos (by omega)]
        congr 1
        omega
      · rw [if_neg (by omega), if_neg (by omega), if_neg (by omega)]
    · have hstride : (count + 1) * s.stride ≤ i * s.stride := Nat.mul_le_mul_right _ hgt
      rw [Nat.succ_mul] at hstride
      rw [if_neg (by omega), if_neg (by omega), if_neg (by omega)]

/-- The second stream starts at a later instance of the first one, and the values
of the next instances have the same bytes in both. -/
structure Stream.Part (first count : Nat) (s s' : Stream) : Prop where
  channel : s'.channel = s.channel
  stride : s'.stride = s.stride
  size : s'.bytes.size = s.bytes.size
  start : s'.start = min (s.start + first * s.stride) s.bytes.size
  bytes : ∀ j < count, ∀ k < s.channel.format.size,
    s'.bytes[s.start + (first + j) * s.stride + k]? =
      s.bytes[s.start + (first + j) * s.stride + k]?

/-- An advanced stream is a part. -/
theorem Stream.part_advance (s : Stream) (first count : Nat) :
    s.Part first count (s.advance first) :=
  ⟨rfl, rfl, rfl, rfl, fun _ _ _ _ => rfl⟩

/-- The values of a part have the bytes of the whole. -/
theorem Stream.Part.valueBytes {first count : Nat} {s s' : Stream} (h : s.Part first count s')
    {j : Nat} (hj : j < count) : s.valueBytes (first + j) = s'.valueBytes j := by
  unfold Stream.valueBytes
  rw [h.channel, h.stride, h.start]
  congr 1
  apply Array.ext_getElem?
  intro k
  rw [Array.getElem?_extract, Array.getElem?_extract, h.size]
  have hadd : (first + j) * s.stride = first * s.stride + j * s.stride := Nat.add_mul ..
  by_cases hcut : s.start + first * s.stride ≤ s.bytes.size
  · rw [Nat.min_eq_left hcut, hadd, ← Nat.add_assoc]
    split
    · have hbytes := h.bytes j hj k (by omega)
      rw [hadd, ← Nat.add_assoc] at hbytes
      exact hbytes.symm
    · rfl
  · rw [if_neg (by omega), if_neg (by omega)]

/-- Storing the same patterns for the common instances keeps a part a part. -/
theorem Stream.Part.storeAll {first count instances : Nat} {s s' : Stream} {v : ElementView}
    (h : s.Part first count s') (hserves : Binding.Serves s v)
    (hreaches : Binding.Reaches s v instances) (hspaced : s.channel.format.size ≤ s.stride) (hcount : 1 ≤ count)
    (hle : first + count ≤ instances) {bits bits' : Nat → UInt32}
    (hbits : ∀ j < count, bits (first + j) = bits' j) :
    v.allInBounds s'.length count = true ∧
      Stream.Part first count (storeAll v instances bits s) (LaneGraph.storeAll v count bits' s') := by
  obtain ⟨hstart, hfits⟩ := hserves.start_advance hreaches
    (show first < instances by omega)
  have hstart' : s'.start = s.start + first * s.stride := h.start.trans hstart
  have hserves' : Binding.Serves s' v :=
    ⟨hserves.stride.trans h.stride.symm, by rw [h.channel]; exact hserves.encoding,
      by rw [h.channel]; exact hserves.within⟩
  have hreaches' : Binding.Reaches s' v count := by
    have hadvance := hserves.reaches_advance hreaches hle
    unfold Binding.Reaches Stream.length at hadvance ⊢
    rw [h.size, hstart', ← hstart]
    exact hadvance
  refine ⟨hreaches'.allInBounds, ?_⟩
  obtain ⟨hwhole, hsize⟩ := storeAll_eq v instances bits s
  obtain ⟨hpart, hsize'⟩ := storeAll_eq v count bits' s'
  have hbytes : ∀ j < count, ∀ k < s.channel.format.size,
      (LaneGraph.storeAll v count bits' s').bytes[s.start + (first + j) * s.stride + k]? =
        (LaneGraph.storeAll v instances bits s).bytes[s.start + (first + j) * s.stride + k]? := by
    intro j hj k hk
    have hplace : s.start + (first + j) * s.stride + k = s'.start + j * s'.stride + k := by
      rw [hstart', h.stride, Nat.add_mul]
      omega
    rw [getElem?_storeAll hserves hreaches hspaced bits (Nat.le_refl _) (first + j) hk,
      hplace, getElem?_storeAll hserves' hreaches' (by rw [h.channel, h.stride]; exact hspaced)
        bits' (Nat.le_refl _) j (by rw [h.channel]; exact hk), ← hplace, h.bytes j hj k hk,
      hbits j hj]
    simp only [hj, show first + j < instances by omega]
  rw [hwhole, hpart]
  exact ⟨h.channel, h.stride, hsize'.trans (h.size.trans hsize.symm), by
    dsimp only
    rw [hsize]
    exact h.start, hbytes⟩

/-! ## Two runs side by side -/

/-- The lanes of the common instances agree. -/
def SameLanes (first count : Nat) {batches batches' : Nat} (x : Column batches)
    (x' : Column batches') : Prop :=
  ∀ j < count, instanceBits x (first + j) = instanceBits x' j

/-- A run over all instances and a run over some of them, each with its batches. -/
structure TwoRuns where
  /-- How many instances there are. -/
  instances : Nat
  /-- The first common instance. -/
  first : Nat
  /-- How many instances are common. -/
  count : Nat
  /-- What the run over all instances works with. -/
  whole : Context
  /-- What the run over the common instances works with. -/
  part : Context
  pos : 1 ≤ count
  le : first + count ≤ instances
  wholeInstances : whole.instances = instances
  related : whole.Part first count part
  lanewise : ∀ f ∈ whole.functions, f.LaneByLane

namespace TwoRuns

variable {σ : TwoRuns}

/-- The states of both runs after the same instructions. -/
structure Related (σ : TwoRuns) (st : State (batchCount σ.instances))
    (st' : State (batchCount σ.count)) : Prop where
  registerCount : st'.registers.size = st.registers.size
  register : ∀ (r : Nat) x x', st.registers[r]? = some x → st'.registers[r]? = some x' →
    SameLanes σ.first σ.count x x'
  outputCount : st'.outputs.size = st.outputs.size
  output : ∀ (k : Nat) s s', st.outputs[k]? = some s → st'.outputs[k]? = some s' →
    s.Part σ.first σ.count s'
  served : ∀ (k : Nat) s, st.outputs[k]? = some s → s.channel.format.size ≤ s.stride ∧ ∀ b, some b ∈ σ.whole.outputs → b.stream = k →
      Binding.Serves s b.view ∧ Binding.Reaches s b.view σ.instances

variable {st mid : State (batchCount σ.instances)} {st' : State (batchCount σ.count)}
  {offset : Nat}

/-- Common instances have batches in both runs. -/
theorem batch_lt (σ : TwoRuns) {j : Nat} (hj : j < σ.count) :
    (σ.first + j) / 4 < batchCount σ.instances ∧ j / 4 < batchCount σ.count := by
  have hle := σ.le
  unfold batchCount
  omega

/-- A register that one run has is there in the other, with the same lanes. -/
theorem Related.read (h : σ.Related st st') {r : UInt32} {x : Column (batchCount σ.instances)}
    (hx : st.register offset r = .ok x) :
    ∃ x', st'.register offset r = .ok x' ∧ SameLanes σ.first σ.count x x' := by
  unfold State.register at hx ⊢
  cases hget : st.registers[r.toNat]? with
  | none =>
    rw [hget] at hx
    cases hx
  | some y =>
    rw [hget] at hx
    cases hx
    have hlt : r.toNat < st'.registers.size := by
      rw [h.registerCount]
      exact (Array.getElem?_eq_some_iff.mp hget).1
    have hget' := Array.getElem?_eq_getElem hlt
    rw [hget']
    exact ⟨_, rfl, h.register r.toNat _ _ hget hget'⟩

/-- Both runs set a register to the same lanes. -/
theorem Related.setRegister (h : σ.Related st st') (r : UInt32)
    {y : Column (batchCount σ.instances)} {y' : Column (batchCount σ.count)}
    (hy : SameLanes σ.first σ.count y y') :
    σ.Related (st.setRegister r y) (st'.setRegister r y') where
  registerCount := by
    unfold State.setRegister
    dsimp only
    rw [Array.size_setIfInBounds, Array.size_setIfInBounds, h.registerCount]
  register k x x' hx hx' := by
    unfold State.setRegister at hx hx'
    dsimp only at hx hx'
    rw [Array.getElem?_setIfInBounds] at hx hx'
    by_cases hk : r.toNat = k
    · rw [if_pos hk] at hx hx'
      split at hx
      · split at hx'
        · cases hx
          cases hx'
          exact hy
        · cases hx'
      · cases hx
    · rw [if_neg hk] at hx hx'
      exact h.register k x x' hx hx'
  outputCount := h.outputCount
  output := h.output
  served := h.served

/-- Both runs store the same patterns for the common instances. -/
theorem Related.store (h : σ.Related st st') {slot : UInt32} {bits bits' : Nat → UInt32}
    (hbits : ∀ j < σ.count, bits (σ.first + j) = bits' j)
    (hstore : σ.whole.store st offset slot bits = .ok mid) :
    ∃ mid', σ.part.store st' offset slot bits' = .ok mid' ∧ σ.Related mid mid' := by
  unfold Context.store
  rw [σ.related.outputs, σ.related.instances]
  rcases Context.store_eq_ok hstore with ⟨hnone, rfl⟩ | ⟨b, s, hb, hs, -, rfl⟩
  · rw [hnone]
    exact ⟨st', rfl, h⟩
  · have hlt : b.stream < st'.outputs.size := by
      rw [h.outputCount]
      exact (Array.getElem?_eq_some_iff.mp hs).1
    have hs' := Array.getElem?_eq_getElem hlt
    obtain ⟨hspaced, hslots⟩ := h.served b.stream s hs
    obtain ⟨hserves, hreaches⟩ := hslots b (List.mem_of_getElem? hb) rfl
    obtain ⟨hall, hpart⟩ := (h.output b.stream s _ hs hs').storeAll hserves hreaches
      hspaced σ.pos σ.le hbits
    rw [hb]
    dsimp only
    rw [hs']
    dsimp only
    rw [if_pos hall]
    refine ⟨_, rfl, ⟨h.registerCount, h.register, ?_, ?_, ?_⟩⟩
    · dsimp only
      rw [Array.size_setIfInBounds, Array.size_setIfInBounds, h.outputCount]
    · intro k t t' ht ht'
      dsimp only at ht ht'
      rw [Array.getElem?_setIfInBounds] at ht ht'
      by_cases hk : b.stream = k
      · rw [if_pos hk, if_pos (Array.getElem?_eq_some_iff.mp hs).1] at ht
        rw [if_pos hk, if_pos hlt] at ht'
        cases ht
        cases ht'
        rw [σ.wholeInstances]
        exact hpart
      · rw [if_neg hk] at ht ht'
        exact h.output k t t' ht ht'
    · intro k t ht
      dsimp only at ht
      rw [Array.getElem?_setIfInBounds] at ht
      by_cases hk : b.stream = k
      · rw [if_pos hk, if_pos (Array.getElem?_eq_some_iff.mp hs).1] at ht
        cases ht
        subst hk
        have hlength := (length_storeAll b.view σ.whole.instances bits s).1
        have heq := (storeAll_eq b.view σ.whole.instances bits s).1
        refine ⟨?_, fun b' hb' hstream => ?_⟩
        · rw [heq]
          exact hspaced
        · obtain ⟨hserves', hreaches'⟩ := hslots b' hb' hstream
          refine ⟨?_, ?_⟩
          · rw [heq]
            exact ⟨hserves'.stride, hserves'.encoding, hserves'.within⟩
          · unfold Binding.Reaches at hreaches' ⊢
            rw [hlength]
            exact hreaches'
      · rw [if_neg hk] at ht
        exact h.served k t ht

/-- Arguments that one run has are there in the other, with the same lanes. -/
theorem Related.arguments (h : σ.Related st st') {rs : List UInt32}
    {xs : List (Column (batchCount σ.instances))}
    (hxs : rs.mapM (st.register offset) = .ok xs) :
    ∃ xs', rs.mapM (st'.register offset) = .ok xs' ∧
      List.Forall₂ (SameLanes σ.first σ.count) xs xs' :=
  Binding.mapM_related _ (fun _ _ _ hy => h.read hy) hxs

/-- The patterns that a common instance has in the arguments are the same. -/
theorem map_instanceBits {first count : Nat} {batches batches' : Nat}
    {xs : List (Column batches)} {xs' : List (Column batches')}
    (h : List.Forall₂ (SameLanes first count) xs xs') {j : Nat} (hj : j < count) :
    xs.map (fun x => instanceBits x (first + j)) = xs'.map fun x => instanceBits x j := by
  induction h with
  | nil => rfl
  | cons hx _ ih => rw [List.map_cons, List.map_cons, hx j hj, ih]

/-- Both runs load the elements of the common instances. -/
theorem Related.load (h : σ.Related st st') {t : Transfer} {r slot : UInt32}
    (hload : σ.whole.load st offset t r slot = .ok mid) :
    ∃ mid', σ.part.load st' offset t r slot = .ok mid' ∧ σ.Related mid mid' := by
  unfold Context.load at hload ⊢
  obtain ⟨old, hold, hload⟩ := bind_eq_ok.mp hload
  obtain ⟨old', hold', -⟩ := h.read hold
  rw [hold']
  cases hslot : σ.whole.inputs[slot.toNat]? with
  | none =>
    rw [hslot] at hload
    cases hload
  | some b =>
    rw [hslot] at hload
    dsimp only at hload
    obtain ⟨hlength, hget⟩ := List.forall₂_iff_get.mp σ.related.inputs
    obtain ⟨hlt, hb⟩ := List.getElem?_eq_some_iff.mp hslot
    have hlt' : slot.toNat < σ.part.inputs.length := hlength ▸ hlt
    have hpart := hget slot.toNat hlt hlt'
    rw [List.get_eq_getElem, List.get_eq_getElem, hb] at hpart
    split at hload
    · cases hload
    · rename_i hkind
      split at hload
      · cases hload
        refine ⟨st'.setRegister r (loadColumn (batchCount σ.count) σ.count σ.part.inputs[slot.toNat]),
          bind_eq_ok.mpr ⟨_, rfl, ?_⟩, h.setRegister r fun j hj => ?_⟩
        · rw [List.getElem?_eq_getElem hlt']
          dsimp only
          rw [hpart.view, if_neg hkind, ← hpart.view, σ.related.instances, if_pos hpart.inBounds]
          rfl
        · obtain ⟨hbatch, hbatch'⟩ := σ.batch_lt hj
          have hle := σ.le
          rw [instanceBits_loadColumn _ _ hbatch, instanceBits_loadColumn _ _ hbatch',
            σ.wholeInstances, Nat.min_eq_left (by omega), Nat.min_eq_left (by omega),
            hpart.read j hj]
      · cases hload

/-- Every instruction keeps the two runs related. -/
theorem Related.step (h : σ.Related st st') {i : Instruction}
    (hstep : σ.whole.step st offset i = .ok mid) :
    ∃ mid', σ.part.step st' offset i = .ok mid' ∧ σ.Related mid mid' := by
  cases i with
  | apply f r a =>
    obtain ⟨_, hr, hstep⟩ := bind_eq_ok.mp hstep
    obtain ⟨x, hx, hstep⟩ := bind_eq_ok.mp hstep
    cases hstep
    obtain ⟨_, hr', -⟩ := h.read hr
    obtain ⟨x', hx', hsame⟩ := h.read hx
    refine ⟨_, bind_eq_ok.mpr ⟨_, hr', bind_eq_ok.mpr ⟨_, hx', rfl⟩⟩,
      h.setRegister r fun j hj => ?_⟩
    obtain ⟨hbatch, hbatch'⟩ := σ.batch_lt hj
    rw [instanceBits_map _ _ hbatch, instanceBits_map _ _ hbatch', hsame j hj]
  | combine o r a b =>
    obtain ⟨_, hr, hstep⟩ := bind_eq_ok.mp hstep
    obtain ⟨x, hx, hstep⟩ := bind_eq_ok.mp hstep
    obtain ⟨y, hy, hstep⟩ := bind_eq_ok.mp hstep
    cases hstep
    obtain ⟨_, hr', -⟩ := h.read hr
    obtain ⟨x', hx', hsame⟩ := h.read hx
    obtain ⟨y', hy', hsame'⟩ := h.read hy
    refine ⟨_, bind_eq_ok.mpr ⟨_, hr', bind_eq_ok.mpr ⟨_, hx', bind_eq_ok.mpr ⟨_, hy', rfl⟩⟩⟩,
      h.setRegister r fun j hj => ?_⟩
    obtain ⟨hbatch, hbatch'⟩ := σ.batch_lt hj
    rw [instanceBits_zip _ _ _ hbatch, instanceBits_zip _ _ _ hbatch', hsame j hj, hsame' j hj]
  | combineConst o r a constant =>
    obtain ⟨_, hr, hstep⟩ := bind_eq_ok.mp hstep
    obtain ⟨x, hx, hstep⟩ := bind_eq_ok.mp hstep
    cases hstep
    obtain ⟨_, hr', -⟩ := h.read hr
    obtain ⟨x', hx', hsame⟩ := h.read hx
    refine ⟨_, bind_eq_ok.mpr ⟨_, hr', bind_eq_ok.mpr ⟨_, hx', rfl⟩⟩,
      h.setRegister r fun j hj => ?_⟩
    obtain ⟨hbatch, hbatch'⟩ := σ.batch_lt hj
    rw [instanceBits_zipConst _ _ _ hbatch, instanceBits_zipConst _ _ _ hbatch', hsame j hj]
  | select c r a b d =>
    obtain ⟨_, hr, hstep⟩ := bind_eq_ok.mp hstep
    obtain ⟨x, hx, hstep⟩ := bind_eq_ok.mp hstep
    obtain ⟨y, hy, hstep⟩ := bind_eq_ok.mp hstep
    obtain ⟨z, hz, hstep⟩ := bind_eq_ok.mp hstep
    cases hstep
    obtain ⟨_, hr', -⟩ := h.read hr
    obtain ⟨x', hx', hmask⟩ := h.read hx
    obtain ⟨y', hy', hset⟩ := h.read hy
    obtain ⟨z', hz', hclear⟩ := h.read hz
    refine ⟨_, bind_eq_ok.mpr ⟨_, hr', bind_eq_ok.mpr ⟨_, hx', bind_eq_ok.mpr ⟨_, hy',
      bind_eq_ok.mpr ⟨_, hz', rfl⟩⟩⟩⟩, h.setRegister r fun j hj => ?_⟩
    obtain ⟨hbatch, hbatch'⟩ := σ.batch_lt hj
    rw [instanceBits_select _ _ _ hbatch, instanceBits_select _ _ _ hbatch', hmask j hj,
      hset j hj, hclear j hj]
  | move r constant =>
    obtain ⟨_, hr, hstep⟩ := bind_eq_ok.mp hstep
    cases hstep
    obtain ⟨_, hr', -⟩ := h.read hr
    refine ⟨_, bind_eq_ok.mpr ⟨_, hr', rfl⟩, h.setRegister r fun j hj => ?_⟩
    obtain ⟨hbatch, hbatch'⟩ := σ.batch_lt hj
    rw [instanceBits_splat _ hbatch, instanceBits_splat _ hbatch']
  | load t r slot => exact h.load hstep
  | store t slot r =>
    obtain ⟨x, hx, hstep⟩ := bind_eq_ok.mp hstep
    obtain ⟨x', hx', hsame⟩ := h.read hx
    obtain ⟨mid', hstore, hrelated⟩ := h.store hsame hstep
    exact ⟨mid', bind_eq_ok.mpr ⟨_, hx', hstore⟩, hrelated⟩
  | storeConst t slot constant => exact h.store (fun _ _ => rfl) hstep
  | call function r arguments =>
    rw [Context.step] at hstep ⊢
    rw [σ.related.functions, σ.related.globals]
    cases hfunction : σ.whole.functions[function.toNat]? with
    | none =>
      rw [hfunction] at hstep
      cases hstep
    | some native =>
      rw [hfunction] at hstep
      obtain ⟨_, hr, hstep⟩ := bind_eq_ok.mp hstep
      obtain ⟨xs, hxs, hstep⟩ := bind_eq_ok.mp hstep
      cases hstep
      obtain ⟨_, hr', -⟩ := h.read hr
      obtain ⟨xs', hxs', hsame⟩ := h.arguments hxs
      refine ⟨_, bind_eq_ok.mpr ⟨_, hr', bind_eq_ok.mpr ⟨_, hxs', rfl⟩⟩,
        h.setRegister r fun j hj => ?_⟩
      obtain ⟨hbatch, hbatch'⟩ := σ.batch_lt hj
      obtain ⟨f, rfl⟩ := σ.lanewise native (List.mem_of_getElem? hfunction)
      rw [instanceBits_ofLanes _ _ _ hbatch, instanceBits_ofLanes _ _ _ hbatch',
        map_instanceBits hsame hj]

/-- If the run over all instances ends without error, so does the other, and they
stay related. -/
theorem Related.run (h : σ.Related st st') (entries : List (Except MachineError Encoded))
    (hrun : (σ.whole.run st entries).2 = none) :
    (σ.part.run st' entries).2 = none ∧
      σ.Related (σ.whole.run st entries).1 (σ.part.run st' entries).1 := by
  induction entries generalizing st st' with
  | nil => exact ⟨rfl, h⟩
  | cons entry rest ih =>
    cases entry with
    | error e => cases hrun
    | ok encoded =>
      unfold Context.run at hrun ⊢
      cases hdecode : encoded.instruction with
      | error e =>
        rw [hdecode] at hrun
        cases hrun
      | ok i =>
        rw [hdecode] at hrun
        cases hstep : σ.whole.step st encoded.offset i with
        | error e =>
          simp only [Except.bind, hstep] at hrun
          cases hrun
        | ok mid =>
          obtain ⟨mid', hstep', hrelated⟩ := h.step hstep
          simp only [Except.bind, hstep] at hrun
          simp only [Except.bind, hstep, hstep']
          exact ih hrelated hrun

end TwoRuns

/-- In related states the values of the common instances have the same bytes. -/
theorem TwoRuns.Related.valueBytes {σ : TwoRuns} {st : State (batchCount σ.instances)}
    {st' : State (batchCount σ.count)} (h : σ.Related st st') {i : Nat} (hi : i < σ.count)
    (k : Nat) : (st.outputs.toList[k]?).map (·.valueBytes (σ.first + i)) =
      (st'.outputs.toList[k]?).map (·.valueBytes i) := by
  rw [Array.getElem?_toList, Array.getElem?_toList]
  by_cases hk : k < st.outputs.size
  · have hk' : k < st'.outputs.size := by rw [h.outputCount]; exact hk
    have hs := Array.getElem?_eq_getElem hk
    have hs' := Array.getElem?_eq_getElem hk'
    rw [hs, hs']
    exact congrArg some ((h.output k _ _ hs hs').valueBytes hi)
  · rw [Array.getElem?_eq_none (by omega), Array.getElem?_eq_none (by rw [h.outputCount]; omega)]
    rfl

/-- The functions of a bound program are functions of the machine. -/
theorem Machine.bind_lanewise {m : Machine} {p : Program} {inputs outputs : List Stream}
    {instances : Nat} {globals : Globals} {c : Context}
    (h : m.bind p inputs outputs instances globals = .ok c)
    (hlanes : ∀ f ∈ m.functions, f.native.LaneByLane) : ∀ f ∈ c.functions, f.LaneByLane := by
  intro f hf
  obtain ⟨-, -, hfunctions, -, -⟩ := Machine.bind_eq_ok h
  obtain ⟨slot, -, hslot⟩ := Binding.mem_of_mapM_eq_ok hfunctions hf
  unfold Binding.bindFunction at hslot
  split at hslot
  · cases hslot
  · rename_i g hg
    split at hslot
    · cases hslot
      exact hlanes g (List.mem_of_find?_eq_some hg)
    · cases hslot

/-- Two executions of one program, over all instances and over a part of them,
start related. -/
theorem TwoRuns.related_start {σ : TwoRuns} {p : Program} {inputs outputs : List Stream}
    (hserved : σ.whole.Served inputs outputs)
    (hspaced : ∀ s ∈ outputs, s.channel.format.size ≤ s.stride) :
    σ.Related (p.start outputs (batchCount σ.instances))
      (p.start (outputs.map (·.advance σ.first)) (batchCount σ.count)) where
  registerCount := by
    unfold Program.start
    rw [Array.size_replicate, Array.size_replicate]
  register r x x' hx hx' := by
    unfold Program.start at hx hx'
    dsimp only at hx hx'
    by_cases hr : r < p.registerCount
    · rw [Array.getElem?_replicate, if_pos hr] at hx hx'
      cases hx
      cases hx'
      intro j hj
      obtain ⟨hbatch, hbatch'⟩ := σ.batch_lt hj
      unfold Lanes.zero
      rw [instanceBits_splat _ hbatch, instanceBits_splat _ hbatch']
    · rw [Array.getElem?_replicate, if_neg hr] at hx
      cases hx
  outputCount := by
    unfold Program.start
    simp
  output k s s' hs hs' := by
    unfold Program.start at hs hs'
    rw [List.getElem?_toArray] at hs hs'
    rw [List.getElem?_map, hs] at hs'
    cases hs'
    exact s.part_advance σ.first σ.count
  served k s hs := by
    unfold Program.start at hs
    rw [List.getElem?_toArray] at hs
    refine ⟨hspaced s (List.mem_of_getElem? hs), ?_⟩
    rintro b hb rfl
    obtain ⟨s', hs', hserves, hreaches⟩ := hserved.output b hb
    rw [hs] at hs'
    cases hs'
    rw [σ.wholeInstances] at hreaches
    exact ⟨hserves, hreaches⟩

/-- Instances are independent. If a program runs over some instances without
error, it runs without error over every part of them, given the same streams from
the first instance of the part on, and leaves the same bytes in the values of the
part's instances. A part may be a single instance, and it may begin and end
anywhere in a batch. The values of an output stream must not overlap, and native
functions work lane by lane. -/
theorem execute_instances_independent (m : Machine) (p : Program) (inputs outputs : List Stream)
    (instances : Nat) (globals : Globals)
    (hlanes : ∀ f ∈ m.functions, f.native.LaneByLane)
    (hspaced : ∀ s ∈ outputs, s.channel.format.size ≤ s.stride)
    (hok : (m.execute p inputs outputs instances globals).1.error = none)
    (first count : Nat) (hcount : 1 ≤ count) (hle : first + count ≤ instances) :
    (m.execute p (inputs.map (·.advance first)) (outputs.map (·.advance first)) count
        globals).1.error = none ∧
      ∀ i < count, ∀ k : Nat,
        ((m.execute p inputs outputs instances globals).1.outputs[k]?).map
            (·.valueBytes (first + i)) =
          ((m.execute p (inputs.map (·.advance first)) (outputs.map (·.advance first)) count
            globals).1.outputs[k]?).map (·.valueBytes i) := by
  obtain ⟨c, hc, hregisters⟩ := Machine.bound_of_execute (by omega) hok
  obtain ⟨c', hc', hpart⟩ := Machine.bind_advance hcount hle hc
  have hregisters' : p.registerCount * batchCount count < Machine.cellLimit :=
    Nat.lt_of_le_of_lt (Nat.mul_le_mul_left _ (by unfold batchCount; omega)) hregisters
  let σ : TwoRuns :=
    { instances, first, count, whole := c, part := c', pos := hcount, le := hle
      wholeInstances := (Machine.bind_eq_ok hc).2.2.2.1, related := hpart
      lanewise := Machine.bind_lanewise hc hlanes }
  have hstart := TwoRuns.related_start (σ := σ) (p := p) (Machine.bind_served hc) hspaced
  rw [Machine.execute_of_bind (by omega) hc hregisters] at hok ⊢
  rw [Machine.execute_of_bind hcount hc' hregisters']
  obtain ⟨hnone, hrelated⟩ := hstart.run p.instructions hok
  refine ⟨hnone, fun i hi k => ?_⟩
  exact hrelated.valueBytes hi k

/-- The last two of five instances, which lie in different batches, are computed
alone as they are among all. -/
theorem execute_instances_independent_fourfold :
    (({} : Machine).execute Fourfold.program [Fourfold.input] [Fourfold.output] 5 []).1.error =
      none ∧
    (({} : Machine).execute Fourfold.program [Fourfold.input.advance 3]
      [Fourfold.output.advance 3] 2 []).1.error = none ∧
    ∀ i < 2, ∀ k : Nat,
      ((({} : Machine).execute Fourfold.program [Fourfold.input] [Fourfold.output] 5
          []).1.outputs[k]?).map (·.valueBytes (3 + i)) =
        ((({} : Machine).execute Fourfold.program [Fourfold.input.advance 3]
          [Fourfold.output.advance 3] 2 []).1.outputs[k]?).map (·.valueBytes i) :=
  ⟨Fourfold.completed.ended, execute_instances_independent {} Fourfold.program [Fourfold.input]
    [Fourfold.output] 5 [] Function.builtins_laneByLane
    (fun s hs => by cases List.mem_singleton.mp hs; decide)
    Fourfold.completed.ended 3 2 (by decide) (by decide)⟩

end LaneGraph
