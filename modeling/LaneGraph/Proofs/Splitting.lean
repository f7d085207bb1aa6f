import LaneGraph.Proofs.Components

/-!
# Vector streams are split

A vector that is read becomes a constructor over its components, and a vector
that is written becomes one output for each component of its expression. What
the outputs deliver is the same, component by component.
-/

namespace LaneGraph

open Build

variable {R : Rules} {t : TypedRules} {g g' : Graph} {w w' : World}

/-- The node reads no vector stream. -/
def Node.readsScalar (n : Node) : Bool :=
  match n.op with
  | .input channel => channel.format.count ≤ 1
  | _ => true

/-- Which streams a node reads is seen in its frame. -/
theorem Node.readsScalar_frame (n : Node) : n.frame.readsScalar = n.readsScalar := by
  unfold readsScalar frame
  cases n.op <;> rfl

/-- The table of input streams may change. -/
theorem Extends.withInputs (g : Graph) (w : World) (inputs : List Channel) :
    Extends g w { g with inputs := inputs } w :=
  ⟨⟨rfl, rfl, Nat.le_refl _, fun _ h => h, fun _ _ => rfl, fun _ _ => rfl,
    fun _ n _ hn => ⟨n, hn, rfl, rfl⟩⟩, fun _ _ h => h, fun _ h => .inl h⟩

namespace Scalars

/-- The form of nodes once vectors are written out. -/
def unmixed (n : Node) (_ : List Shape) : Bool := !n.mixes

/-- The form of nodes once vector streams are split. -/
def split (n : Node) (_ : List Shape) : Bool := !n.mixes && n.readsScalar

/-- The rules under which streams are split. -/
def rulesOf (tracked simple : Prop) (S : Semantics) (G : Agreement) (exact : Prop := True) :
    TypedRules :=
  { tracked, simple, semantics := S, form := split, need := fun _ => 1, agreement := G, exact }

/-- The rules under which streams are split, for what nodes compute. -/
def rules (tracked simple : Prop) (A : Interpretation) (G : Agreement) : TypedRules :=
  rulesOf tracked simple A.semantics G

section

variable {tracked simple exact : Prop} {S : Semantics} {G : Agreement} {channel : Channel}

/-- The shape of a component of a stream. -/
theorem component_shape (channel : Channel) (c : Component) :
    (channel.component c).format.shape = ⟨channel.format.encoding.kind, 1⟩ :=
  (Format.shape_eq (Nat.le_refl 1) (by decide : 1 ≤ 4)).1

/-- The component of a stream is read. -/
theorem input_ends (hs : Sound (rulesOf tracked simple S G exact).rules g w)
    (hplain : simple → channel.format.encoding.kind = .int) (c : Component) :
    Ends (input (channel.component c)) g fun id g' => ∃ w',
      Sound (rulesOf tracked simple S G exact).rules g' w' ∧ Extends g w g' w' ∧
      Has (rulesOf tracked simple S G exact).rules g' w' id ⟨channel.format.encoding.kind, 1⟩
        (S.denote (.readComponent channel c) []) 0 := by
  let part := channel.component c
  let n : Node := .readComponent channel c
  have hshape : n.shape = ⟨channel.format.encoding.kind, 1⟩ := component_shape channel c
  obtain ⟨inputs, hinputs⟩ : ∃ inputs, (if g.inputs.any (·.name == part.name) then g
      else { g with inputs := g.inputs ++ [part] }) = { g with inputs := inputs } := by
    split
    · exact ⟨g.inputs, rfl⟩
    · exact ⟨_, rfl⟩
  have hs₁ := hs.withInputs inputs
  have hfits : (rulesOf tracked simple S G exact).rules.fits g.functions n.frame [] := by
    refine ⟨.inl ⟨rfl, Nat.le_refl 1, (show 1 ≤ 4 by decide), rfl⟩, rfl, fun h => ?_⟩
    rw [Node.plain_frame]
    unfold Node.plain
    rw [hshape, hplain h]
    rfl
  have hrun : (plain (.input part) part.format.shape).runOn { g with inputs := inputs } =
      (.ok g.nodes.size, Graph.push { g with inputs := inputs } n) :=
    runOn_plain _ _ fun _ hc => (nomatch hc)
  obtain ⟨w', hs', hext, hhas⟩ := hs₁.added 0 (n := n) hfits
    (fun _ hc => (nomatch hc)) fun _ hc => (nomatch hc)
  unfold input
  rw [ends_bind, ends_modify, hinputs, ends_of_runOn hrun]
  rw [← hshape]
  exact ⟨w', hs', (Extends.withInputs g w inputs).trans hext, hhas⟩

/-- The components of a stream are read. -/
theorem inputs_ends (hs : Sound (rulesOf tracked simple S G exact).rules g w)
    (hplain : simple → channel.format.encoding.kind = .int) (cs : List Component) :
    Ends (cs.mapM fun c => input (channel.component c)) g fun ids g' => ∃ w',
      Sound (rulesOf tracked simple S G exact).rules g' w' ∧ Extends g w g' w' ∧
      List.Forall₂ (fun c id => Has (rulesOf tracked simple S G exact).rules g' w' id
        ⟨channel.format.encoding.kind, 1⟩ (S.denote (.readComponent channel c) []) 0) cs ids := by
  induction cs generalizing g w with
  | nil => exact ⟨w, hs, Extends.refl g w, .nil⟩
  | cons c cs ih =>
    rw [List.mapM_cons, ends_bind]
    refine (input_ends hs hplain c).mono ?_
    rintro id g₁ ⟨w₁, hs₁, hext₁, hid⟩
    rw [ends_bind]
    refine (ih hs₁).mono ?_
    rintro ids g₂ ⟨w₂, hs₂, hext₂, hids⟩
    exact ⟨w₂, hs₂, hext₁.trans hext₂, .cons (hid.later hs₁ hext₂.toLater) hids⟩

/-- A vector that is read is put together from its components. -/
theorem splitInput_ends {n : Node} (hS : tracked → Separates simple S G)
    (hs : Sound (rulesOf tracked simple S G exact).rules g w) (hop : n.op = .input channel) (htyped : n.Typed g.functions [])
    (hplain : simple → n.plain = true) (hwide : ¬channel.format.count ≤ 1) :
    Ends (do
      let parts ← (Component.all.take channel.format.count).mapM fun c =>
        input (channel.component c)
      construct n.shape parts) g
      (Yields (rulesOf tracked simple S G exact).rules g w n.shape (S.denote n [])) := by
  unfold Node.Typed at htyped
  rw [hop] at htyped
  obtain ⟨-, hpos, hle, hshape⟩ := htyped
  obtain ⟨hshape', hsized⟩ := Format.shape_eq hpos hle
  rw [← hshape] at hshape' hsized
  have hkind : simple → channel.format.encoding.kind = .int := by
    intro h
    have hfloat := Node.kind_of_plain (hplain h)
    rw [hshape'] at hfloat
    cases hencoding : channel.format.encoding <;> rw [hencoding] at hfloat <;>
      first | rfl | exact absurd rfl hfloat
  rw [ends_bind]
  refine (inputs_ends hs hkind _).mono ?_
  rintro ids g₁ ⟨w₁, hs₁, hext₁, hids⟩
  have hlength : ids.length = n.shape.width := by
    rw [← hids.length_eq, length_components hle, hshape']
  have hpart : ∀ x ∈ ids, w₁.live x ∧ g₁.shapeAt x = ⟨n.shape.kind, 1⟩ ∧ w₁.rank x = 0 := by
    intro x hx
    obtain ⟨k, hk, rfl⟩ := List.getElem_of_mem hx
    have hhas := hids.get (by rw [hids.length_eq]; exact hk) hk
    rw [hshape']
    exact ⟨hhas.live, hhas.shape, Nat.le_zero.mp hhas.rank⟩
  have hknown : g₁.Known ids := by
    refine Graph.known_of_shapeAt fun x hx => ?_
    rw [(hpart x hx).2.1]
    exact decide_eq_false hsized.known
  let n' : Node := { op := .construct ids, shape := n.shape, inputWidth := 1, overload := some 0 }
  have hrun := runOn_construct_scalars n.shape hknown
    (fun x hx => by rw [(hpart x hx).2.1]) hlength
  have hfits : (rulesOf tracked simple S G exact).rules.fits g₁.functions n'.frame
      (n'.children.map g₁.shapeAt) := by
    refine ⟨.inl (Node.typed_frame.mpr ⟨hsized, rfl, ?_⟩), rfl, fun h => ?_⟩
    · rw [← hlength]
      exact List.eq_replicate_iff.mpr ⟨List.length_map _, fun s hs => by
        obtain ⟨x, hx, rfl⟩ := List.mem_map.mp hs
        exact (hpart x hx).2.1⟩
    · rw [Node.plain_frame]
      exact Node.plain_of_kind (hplain h) rfl rfl
  have hvalues : tracked → List.Forall₂ G.le ((Component.all.take channel.format.count).map
      fun c => S.denote (.readComponent channel c) []) (ids.map w₁.value) := by
    intro ht
    rw [List.forall₂_map_left_iff, List.forall₂_map_right_iff]
    exact hids.imp fun _ _ hid => hid.value ht
  obtain ⟨w₂, hs₂, hext₂, hhas⟩ := hs₁.added_of 1 (n := n') hfits
    (fun x hx => (hpart x hx).1) (fun x hx => by rw [(hpart x hx).2.2]; exact Nat.le_refl 1)
    hvalues
  rw [ends_of_runOn hrun]
  refine ⟨w₂, 1, hs₂, hext₁.trans hext₂, hhas.weaken fun ht => ?_⟩
  have hvalue : S.denote n [] = S.denote n' ((Component.all.take channel.format.count).map
      fun c => S.denote (.readComponent channel c) []) :=
    (hS ht).stream hop rfl rfl (by rw [hshape']) (by omega) hle
  exact hvalue ▸ G.refl _

/-- A vector input is replaced by a constructor over its components. -/
theorem input_replaces (hS : tracked → Separates simple S G) :
    Replaces ((rulesOf tracked simple S G exact).staged unmixed) (rulesOf tracked simple S G exact).rules
      (fun _ _ => True) splitInput := by
  intro g w id n hs _ hn hdead hlive hfits
  obtain ⟨htyped, hform, hplain⟩ := hfits
  have hmeaning : ((rulesOf tracked simple S G exact).staged unmixed).meaning g.functions n.frame
      (n.children.map g.shapeAt) (n.children.map w.value) =
        S.denote n (n.children.map w.value) := S.frame n _
  rw [hmeaning]
  have hstay : n.readsScalar = true → ∃ w', True ∧ Replaced (rulesOf tracked simple S G exact).rules g w
      id n (S.denote n (n.children.map w.value)) id g w' := by
    intro h
    have hsplit : split n.frame (n.children.map g.shapeAt) = true := by
      unfold split
      rw [Bool.and_eq_true, n.readsScalar_frame]
      exact ⟨hform, h⟩
    obtain ⟨rank, hreplaced⟩ := Replaced.stay hs hn hdead hlive ⟨htyped, hsplit, hplain⟩
      fun _ => by rw [TypedRules.meaning_frame]; exact G.refl _
    exact ⟨_, trivial, hreplaced⟩
  unfold splitInput
  rw [ends_bind, ends_node hn]
  cases hop : n.op with
  | input channel =>
    dsimp only
    split
    · rename_i hcount
      refine hstay ?_
      unfold Node.readsScalar
      rw [hop]
      exact decide_eq_true hcount
    · rename_i hwide
      have hchildren : n.children = [] := by
        unfold Node.children
        rw [hop]
        rfl
      rw [hchildren] at htyped ⊢
      refine (splitInput_ends hS hs hop ((Node.fits_frame.mp htyped).typed_of_isCall (hop ▸ rfl))
        (fun h => n.plain_frame ▸ hplain h) hwide).mono ?_
      intro new g' hyields
      obtain ⟨w', hreplaced⟩ := hyields.replaced id (by unfold Node.channel?; rw [hop])
      exact ⟨w', trivial, hreplaced⟩
  | _ =>
    refine hstay ?_
    unfold Node.readsScalar
    rw [hop]

/-- Nodes that write streams are not split as inputs. -/
theorem splitInput_steady : Steady splitInput := by
  intro g id n channel hn hchannel
  obtain ⟨source, hop⟩ := Node.op_of_channel? hchannel
  unfold splitInput
  rw [runOn_bind, runOn_node hn]
  dsimp only
  rw [hop]
  rfl

/-- After the pass no vector stream is read. Outputs stay. -/
theorem inputPass_ends (hS : tracked → Separates simple S G) {made : List Delivery}
    (h : Stage ((rulesOf tracked simple S G exact).staged unmixed) g made) (hne : made ≠ []) :
    Ends inputPass.run g fun _ g' => g'.outputs = g.outputs ∧
      Stage (rulesOf tracked simple S G exact).rules g' made := by
  have hreplaces : Replaces ((rulesOf tracked simple S G exact).staged unmixed) (rulesOf tracked simple S G exact).rules
      (fun _ _ => True) inputPass.replace := input_replaces hS
  refine (Pass.upward_keeps rfl hreplaces (fun _ _ _ _ _ _ h => h) (fun _ => trivial) (fun h => h)
    (fun _ => Nat.le_refl 1) h hne rfl).mono ?_
  rintro _ g' ⟨houtputs, w', -, hs, hwrites, -⟩
  exact ⟨houtputs splitInput_steady, w', hs, hwrites⟩

/-- A component of a node is selected. -/
theorem swizzle_ends (hS : tracked → Separates simple S G)
    (hs : Sound (rulesOf tracked simple S G exact).rules g w) {x : NodeId}
    (hx : w.live x) (c : Component) :
    Ends (swizzle [c] x) g fun id g' => ∃ w', Sound (rulesOf tracked simple S G exact).rules g' w' ∧
      Extends g w g' w' ∧ Has (rulesOf tracked simple S G exact).rules g' w' id
        ⟨(g.shapeAt x).kind, 1⟩ (S.part (w.value x) c) (w.rank x + 1) := by
  obtain ⟨m, hm, hsound⟩ := hs x hx
  have hplain := hsound.fits.2.2
  have hsized := hsound.sized
  rw [← Graph.shapeAt_eq hm] at hsized
  have hknown : g.Known [x] := by
    refine Graph.known_of_shapeAt fun c hc => ?_
    rw [List.mem_singleton.mp hc]
    exact decide_eq_false hsized.known
  let n : Node :=
    { op := .swizzle [c] x, shape := Shape.of (g.shapeAt x).kind 1, inputWidth := (g.shapeAt x).width }
  have hshape : n.shape = ⟨(g.shapeAt x).kind, 1⟩ :=
    Shape.of_eq hsized.known (Nat.le_refl 1) (by decide)
  have hrun : (swizzle [c] x).runOn g = (.ok g.nodes.size, g.push n) := runOn_plain _ _ hknown
  have hfits : (rulesOf tracked simple S G exact).rules.fits g.functions n.frame [g.shapeAt x] := by
    refine ⟨.inl (Node.typed_frame.mpr ⟨g.shapeAt x, rfl, hsized, rfl⟩), rfl, fun h => ?_⟩
    rw [Node.plain_frame]
    refine Node.plain_of_kind (m.plain_frame ▸ hplain h) ?_ rfl
    rw [hshape, Graph.shapeAt_eq hm]
  obtain ⟨w', hs', hext, hhas⟩ := hs.added (w.rank x + 1) (n := n) hfits
    (fun c hc => List.mem_singleton.mp hc ▸ hx)
    fun c hc => by rw [List.mem_singleton.mp hc]; exact Nat.le_refl _
  rw [ends_of_runOn hrun, ← hshape]
  refine ⟨w', hs', hext, hhas.weaken fun ht => ?_⟩
  exact (hS ht).selection (n := n) rfl (congrArg Shape.width hshape) ▸ G.refl _

/-- A component of a node is written. -/
theorem output_ends (hS : tracked → Separates simple S G)
    (hs : Sound (rulesOf tracked simple S G exact).rules g w) {x : NodeId}
    (hx : w.live x) (hshape : g.shapeAt x = ⟨channel.format.encoding.kind, 1⟩) (c : Component) :
    Ends (unlistedOutput (channel.component c) x) g fun id g' => ∃ w',
      Sound (rulesOf tracked simple S G exact).rules g' w' ∧ Extends g w g' w' ∧ w'.live id ∧
      g'.channelAt id = some (channel.component c) ∧
      (tracked → G.le (w.value x) (w'.value id)) := by
  let ch := channel.component c
  let n : Node := { op := .output ch x, shape := ch.format.shape, inputWidth := 1 }
  have hshape' : n.shape = ⟨channel.format.encoding.kind, 1⟩ := component_shape channel c
  obtain ⟨m, hm, hsound⟩ := hs x hx
  have hplain := hsound.fits.2.2
  have hknown : g.Known [x] := by
    refine Graph.known_of_shapeAt fun c hc => ?_
    rw [List.mem_singleton.mp hc, Graph.shapeAt_eq hm]
    exact decide_eq_false hsound.sized.known
  have hrun : (unlistedOutput ch x).runOn g = (.ok g.nodes.size, g.push n) := by
    have hrun := runOn_plain (.output ch x) ch.format.shape hknown
    have hwide : widest [g.shapeAt x] = 1 := by
      rw [hshape]
      rfl
    have hresolved : ({ op := .output ch x, shape := ch.format.shape } : Node).resolved g.functions
        ([x].map g.shapeAt) = n := by
      unfold Node.resolved
      rw [List.map_singleton, hwide]
    rw [← hresolved]
    exact hrun
  have hfits : (rulesOf tracked simple S G exact).rules.fits g.functions n.frame [g.shapeAt x] := by
    refine ⟨.inl (Node.typed_frame.mpr ⟨?_, Nat.le_refl 1, (show 1 ≤ 4 by decide), rfl⟩), rfl, fun h => ?_⟩
    · rw [hshape, hshape']
    · rw [Node.plain_frame]
      refine Node.plain_of_kind (m.plain_frame ▸ hplain h) ?_ rfl
      rw [hshape', ← hshape, Graph.shapeAt_eq hm]
  obtain ⟨w', hs', hext, hhas⟩ := hs.added (w.rank x + 1) (n := n) hfits
    (fun c hc => List.mem_singleton.mp hc ▸ hx)
    fun c hc => by rw [List.mem_singleton.mp hc]; exact Nat.le_refl _
  rw [ends_of_runOn hrun]
  refine ⟨w', hs', hext, hhas.live, ?_, fun h => ?_⟩
  · unfold Graph.channelAt
    rw [Graph.node?_push_size]
    rfl
  · have hvalue : S.denote n [w.value x] = w.value x :=
      (hS h).written (n := n) rfl (by rw [hshape']) (by rw [hshape]) (hs.valueOf h hx)
    exact hvalue ▸ hhas.value h

end

end Scalars

/-- The deliveries of the components of a vector. -/
def Delivery.parts (d : Delivery) : List Delivery :=
  if d.channel.format.count ≤ 1 then [d]
  else (Component.all.take d.channel.format.count).map fun c =>
    ⟨d.channel.component c, Scalars.part d.value c⟩

/-- The parts of a delivery under a reading of nodes. -/
def Delivery.partsOf (S : Semantics) (d : Delivery) : List Delivery :=
  if d.channel.format.count ≤ 1 then [d]
  else (Component.all.take d.channel.format.count).map fun c =>
    ⟨d.channel.component c, S.part d.value c⟩

/-- Under an interpretation, the parts hold the components. -/
theorem Delivery.partsOf_semantics (A : Interpretation) : partsOf A.semantics = parts := by
  funext d
  unfold partsOf parts
  split
  · rfl
  · exact List.map_congr_left fun c _ => by rw [Scalars.part_semantics]

/-- There are as many parts under every reading of nodes. -/
theorem Delivery.length_partsOf (S : Semantics) (d : Delivery) :
    (d.partsOf S).length = d.parts.length := by
  unfold partsOf parts
  split
  · rfl
  · rw [List.length_map, List.length_map]

namespace Scalars

variable {tracked simple exact : Prop} {S : Semantics} {G : Agreement} {channel : Channel}

/-- Components of a node are written, one after the other. -/
theorem parts_ends (hS : tracked → Separates simple S G)
    (hs : Sound (rulesOf tracked simple S G exact).rules g w) {x : NodeId}
    (hx : w.live x) (hkind : (g.shapeAt x).kind = channel.format.encoding.kind)
    (cs : List Component) :
    Ends (cs.mapM fun c => do
      let selected ← swizzle [c] x
      unlistedOutput (channel.component c) selected) g fun ids g' => ∃ w',
      Sound (rulesOf tracked simple S G exact).rules g' w' ∧ Extends g w g' w' ∧
      Writes (rulesOf tracked simple S G exact).rules g' w' ids
        (cs.map fun c => ⟨channel.component c, S.part (w.value x) c⟩) := by
  induction cs generalizing g w with
  | nil => exact ⟨w, hs, Extends.refl g w, .nil⟩
  | cons c cs ih =>
    rw [List.mapM_cons, ends_bind, ends_bind]
    refine (swizzle_ends hS hs hx c).mono ?_
    rintro selected g₁ ⟨w₁, hs₁, hext₁, hselected⟩
    refine (output_ends hS hs₁ hselected.live (by rw [hselected.shape, hkind]) c).mono ?_
    rintro id g₂ ⟨w₂, hs₂, hext₂, hlive, hchannel, hvalue⟩
    have hext := hext₁.trans hext₂
    rw [ends_bind]
    refine (ih hs₂ (hext.live x hx) (by rw [hext.shapeAt hs hx, hkind])).mono ?_
    rintro ids g₃ ⟨w₃, hs₃, hext₃, hwrites⟩
    rw [hext.value x hx] at hwrites
    have hfirst : Writes (rulesOf tracked simple S G exact).rules g₂ w₂ [id]
        [⟨channel.component c, S.part (w.value x) c⟩] :=
      .cons ⟨hlive, hchannel, fun h => G.trans (hselected.value h) (hvalue h)⟩ .nil
    exact ⟨w₃, hs₃, hext.trans hext₃, List.rel_append (hfirst.later hs₂ hext₃.toLater) hwrites⟩

/-- An output is split into outputs of its components. A scalar output stays. -/
theorem splitOutput_ends (hS : tracked → Separates simple S G)
    (hs : Sound (rulesOf tracked simple S G exact).rules g w) {id : NodeId}
    {d : Delivery} (hid : w.live id) (hchannel : g.channelAt id = some d.channel)
    (hvalue : tracked → G.le d.value (w.value id)) :
    Ends (splitOutput id) g fun ids g' => (d.channel.format.count ≤ 1 → ids = [id]) ∧
      ∃ w', Sound (rulesOf tracked simple S G exact).rules g' w' ∧ Extends g w g' w' ∧
        Writes (rulesOf tracked simple S G exact).rules g' w' ids (d.partsOf S) := by
  obtain ⟨n, hn, hsound⟩ := hs id hid
  have hchecked : g.checkedNode id = .ok n := by
    unfold Graph.checkedNode
    rw [hn]
  unfold Graph.channelAt at hchannel
  rw [hn, Option.bind_some] at hchannel
  obtain ⟨source, hop⟩ := Node.op_of_channel? hchannel
  have hchildren : n.children = [source] := by
    unfold Node.children
    rw [hop]
    rfl
  have hsource : w.live source := by
    refine hsound.live source ?_
    rw [hchildren]
    exact List.mem_singleton_self source
  have htyped := (Node.fits_frame.mp hsound.fits.1).typed_of_isCall (hop ▸ rfl)
  rw [hchildren] at htyped
  unfold Node.Typed at htyped
  rw [hop] at htyped
  obtain ⟨hshapes, hpos, hle, hshape⟩ := htyped
  have hsame : g.shapeAt source = n.shape := List.singleton_inj.mp hshapes
  have hformat := (Format.shape_eq hpos hle).1
  rw [← hshape] at hformat
  unfold splitOutput
  rw [ends_bind, ends_ask hchecked, hop]
  dsimp only
  unfold Delivery.partsOf
  split
  · refine ⟨fun _ => rfl, w, hs, Extends.refl g w, .cons ⟨hid, ?_, hvalue⟩ .nil⟩
    unfold Graph.channelAt
    rw [hn]
    exact hchannel
  · rename_i hwide
    refine (parts_ends hS hs hsource (by rw [hsame, hformat]) _).mono ?_
    rintro ids g' ⟨w', hs', hext, hwrites⟩
    refine ⟨fun hscalar => (hwide hscalar).elim, w', hs', hext, hwrites.congr ?_⟩
    rw [List.forall₂_map_left_iff, List.forall₂_map_right_iff, List.forall₂_same]
    intro c hc
    refine ⟨rfl, fun h => ?_⟩
    -- Below the width of the output, its value is that of its source.
    have hlt : c.index < n.shape.width := by
      rw [hformat]
      exact index_lt hle hc
    have hchain := S.part_mono G (G.trans (hvalue h) (hsound.denotes h)) c
    rw [hchildren] at hchain
    have hsourceValue : S.part (S.denote n [w.value source]) c = S.part (w.value source) c :=
      (hS h).output hop hlt
    rw [← hsourceValue]
    exact hchain

/-- The outputs that take the place of one: there is one for each component, and a
scalar output stays. -/
structure Stands (id : NodeId) (d : Delivery) (ids : List NodeId) : Prop where
  length : d.parts.length = ids.length
  stays : d.channel.format.count ≤ 1 → ids = [id]

/-- All outputs are split. -/
theorem splitAll_ends (hS : tracked → Separates simple S G) {made : List Delivery} {ids : List NodeId}
    (hs : Sound (rulesOf tracked simple S G exact).rules g w)
    (hwrites : Writes (rulesOf tracked simple S G exact).rules g w ids made) :
    Ends (ids.mapM splitOutput) g fun pieces g' =>
      List.Forall₂ (fun p => Stands p.1 p.2) (ids.zip made) pieces ∧ ∃ w',
        Sound (rulesOf tracked simple S G exact).rules g' w' ∧ Extends g w g' w' ∧
        Writes (rulesOf tracked simple S G exact).rules g' w' pieces.flatten
          (made.flatMap (Delivery.partsOf S)) := by
  induction ids generalizing g w made with
  | nil =>
    cases hwrites
    exact ⟨.nil, w, hs, Extends.refl g w, .nil⟩
  | @cons id ids ih =>
    cases hwrites with
    | @cons _ d _ rest hid hrest =>
      rw [List.mapM_cons, ends_bind]
      refine (splitOutput_ends hS hs hid.1 hid.2.1 hid.2.2).mono ?_
      rintro first g₁ ⟨hstays, w₁, hs₁, hext₁, hfirst⟩
      rw [ends_bind]
      refine (ih hs₁ (Writes.later hrest hs hext₁.toLater)).mono ?_
      rintro pieces g₂ ⟨hothers, w₂, hs₂, hext₂, hpieces⟩
      have hlength : d.parts.length = first.length := by
        rw [← d.length_partsOf S, hfirst.length_eq]
      exact ⟨.cons ⟨hlength, hstays⟩ hothers, w₂, hs₂, hext₁.trans hext₂,
        List.rel_append (hfirst.later hs₁ hext₂.toLater) hpieces⟩

/-- After outputs are split, they deliver the components of what they delivered. -/
theorem splitOutputs_ends (hS : tracked → Separates simple S G) {made : List Delivery}
    (h : Stage (rulesOf tracked simple S G exact).rules g made) :
    Ends splitOutputs g fun _ g' => ∃ pieces, g'.outputs = pieces.flatten ∧
      List.Forall₂ (fun p => Stands p.1 p.2) (g.outputs.zip made) pieces ∧
      Stage (rulesOf tracked simple S G exact).rules g' (made.flatMap (Delivery.partsOf S)) := by
  obtain ⟨w, hs, hwrites⟩ := h
  unfold splitOutputs
  rw [ends_bind, ends_get, ends_bind]
  refine (splitAll_ends hS hs hwrites).mono ?_
  rintro pieces g' ⟨hstands, w', hs', -, hwrites'⟩
  rw [ends_modify]
  exact ⟨pieces, rfl, hstands, w', hs'.withOutputs _, hwrites'⟩

/-- Splitting the table of input streams changes no value. Outputs stay. -/
theorem splitInputTable_ends {made : List Delivery} (h : Stage R g made) :
    Ends splitInputTable g fun _ g' => g'.outputs = g.outputs ∧ Stage R g' made := by
  obtain ⟨w, hs, hwrites⟩ := h
  exact ⟨rfl, w, hs.withInputs _, hwrites⟩

end Scalars

end LaneGraph
