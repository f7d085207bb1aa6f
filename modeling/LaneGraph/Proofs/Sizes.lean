import LaneGraph.Proofs.Binding

/-!
# What the size check is worth

The bytes that a view needs are counted in the address space. Where the end of the last
element can be addressed, the count is that end and a stream that passes the check holds
all elements, so that no access leaves it. Where it cannot, a check without overflow
faults has wrapped around, and a stream that passes does not hold the elements it was
checked for.
-/

namespace LaneGraph

/-- The elements of the first instances lie within a number of visible bytes. Their places
are numbers, not addresses. -/
def ElementView.Within (v : ElementView) (length instances : Nat) : Prop :=
  ∀ i < instances, v.offset + i * v.stride + v.encoding.size ≤ length

namespace ElementView

variable {v : ElementView} {length instances : Nat}

/-- All elements lie where the last one ends or before. -/
theorem within_iff_reach (hpos : 1 ≤ instances) :
    v.Within length instances ↔ v.reach instances ≤ length := by
  constructor
  · intro hwithin
    exact hwithin (instances - 1) (by omega)
  · intro hlong i hi
    exact Nat.le_trans (v.end_le_reach hi) hlong

end ElementView

namespace Binding

/-- A stream that passes the size check holds the elements of all instances exactly if the
end of the last one can be addressed, which it always can where overflows are checked. Then
the positions at which elements are read and written are computed as their places, and none
leaves the visible bytes, whether it is counted from the first of them, as writing does, or
from the first element, as reading does. -/
theorem view_within_iff {o : Overflow} {slot : Channel} {component : Option Component}
    {s : Stream} {instances : Nat} {v : ElementView} (hpos : 1 ≤ instances)
    (hlength : s.length < addressSpace) (hview : view o slot component s instances = .ok v) :
    (v.Within s.length instances ↔ v.reach instances < addressSpace) ∧
      (o = .faults → v.reach instances < addressSpace) ∧
      (v.reach instances < addressSpace →
        (∀ i < instances, o.address? (v.offset + i * v.stride) = some (v.position i)) ∧
        v.allInBounds s.length instances = true ∧
        ({ v with offset := 0 } : ElementView).allInBounds (s.withOffset v.offset).length
          instances = true) := by
  obtain ⟨required, hrequired, hreaches⟩ := view_required hview
  rw [v.requiredBytes?_eq o hpos] at hrequired
  rw [ElementView.within_iff_reach hpos]
  have hlong : v.reach instances < addressSpace → v.reach instances ≤ s.length := by
    intro haddressed
    rw [o.address?_of_lt haddressed] at hrequired
    cases hrequired
    exact hreaches
  refine ⟨⟨fun hend => Nat.lt_of_le_of_lt hend hlength, hlong⟩, ?_, fun haddressed => ?_⟩
  · rintro rfl
    exact (Overflow.address?_faults hrequired).2
  have hend := hlong haddressed
  refine ⟨fun i hi => ?_, ElementView.allInBounds_of_reach hend, ?_⟩
  · have hle := v.end_le_reach hi
    exact o.address?_of_lt (by omega)
  · refine ElementView.allInBounds_of_reach ?_
    rw [v.reach_skipped, Stream.length_withOffset]
    omega

/-- The last components of two tightly packed vectors. -/
theorem view_within_iff_packed :
    let s := Stream.ofBytes ⟨"v", .of .int 4⟩ (Array.replicate 32 0)
    let v : ElementView := ⟨12, 16, .int⟩
    (s.length < addressSpace ∧ view .wraps ⟨"v.w", .of .int 1⟩ (some .w) s 2 = .ok v ∧
      v.reach 2 < addressSpace) ∧
    v.Within s.length 2 ∧ v.allInBounds s.length 2 = true ∧
      ({ v with offset := 0 } : ElementView).allInBounds (s.withOffset 12).length 2 = true := by
  intro s v
  have hlength : s.length < addressSpace := by decide
  have hview : view .wraps ⟨"v.w", .of .int 1⟩ (some .w) s 2 = .ok v := by decide
  have haddressed : v.reach 2 < addressSpace := by decide
  obtain ⟨hwithin, -, hbounds⟩ := view_within_iff (by decide) hlength hview
  exact ⟨⟨hlength, hview, haddressed⟩, hwithin.mpr haddressed, (hbounds haddressed).2⟩

/-- Two instances a little less than the address space apart pass the check of a stream of
eight bytes where overflows wrap around. The second one lies outside. Where overflows are
checked, the program that loads the stream breaks off. -/
theorem view_wraps_around :
    let slot : Channel := ⟨"a", .of .int 1⟩
    let s := (Stream.ofBytes slot (Array.replicate 8 0)).withStride (2 ^ 64 - 4)
    let v : ElementView := ⟨0, 2 ^ 64 - 4, .int⟩
    let p : Program :=
      { code := [94, 0, 0], inputs := [slot], instructionCount := 1, registerCount := 1 }
    s.stride < addressSpace ∧ s.length < addressSpace ∧ view .wraps slot none s 2 = .ok v ∧
      ¬ v.Within s.length 2 ∧ v.inBounds s.length 1 = false ∧
      (({} : Machine).execute p [s] [] 2 []).1.error = some .accessOutOfBounds := by
  intro slot s v p
  refine ⟨by decide, by decide, by decide, fun hwithin => ?_, by decide, by decide⟩
  have hlast := hwithin 1 (by decide)
  have houtside : ¬ v.offset + 1 * v.stride + v.encoding.size ≤ s.length := by decide
  exact houtside hlast

end Binding

end LaneGraph
