import LaneGraph.Machine.Basic
import LaneGraph.Proofs.Results
import Mathlib.Data.List.Pairwise

/-!
# Symbols of functions

A symbol is the name of a function, an underscore and a letter for each input. Names
may contain underscores and may end in letters like those, but the letters themselves
never include the separator, so the last underscore of a symbol is where the name ends.
A symbol is therefore as good as the name together with the inputs, and a machine that
keeps one function for each symbol keeps one for each name and inputs.
-/

namespace LaneGraph

/-! ## Reading a symbol from its end -/

/-- Where what follows the last separator of a text goes on before it, the text has a
separator after its last one. -/
theorem eq_of_cons_eq_append_cons {α : Type} {sep : α} {tail tail' between : List α}
    (h : sep :: tail = between ++ sep :: tail') (hfree : sep ∉ tail) :
    between = [] ∧ tail = tail' := by
  cases between with
  | nil => exact ⟨rfl, List.tail_eq_of_cons_eq h⟩
  | cons c rest =>
    have htail : tail = rest ++ sep :: tail' := List.tail_eq_of_cons_eq h
    rw [htail] at hfree
    exact absurd (by simp) hfree

/-- A text is split at its last separator in one way only. -/
theorem eq_of_append_separator {α : Type} {sep : α} {front front' tail tail' : List α}
    (h : front ++ sep :: tail = front' ++ sep :: tail') (hfree : sep ∉ tail)
    (hfree' : sep ∉ tail') : front = front' ∧ tail = tail' := by
  rcases List.append_eq_append_iff.mp h with ⟨between, hfront, htail⟩ | ⟨between, hfront, htail⟩
  · obtain ⟨rfl, rfl⟩ := eq_of_cons_eq_append_cons htail hfree
    exact ⟨by rw [hfront, List.append_nil], rfl⟩
  · obtain ⟨rfl, rfl⟩ := eq_of_cons_eq_append_cons htail hfree'
    exact ⟨by rw [hfront, List.append_nil], rfl⟩

/-- The letter of a kind gives the kind back. -/
theorem Kind.ofLetter?_letter (k : Kind) : ofLetter? k.letter = some k := by
  cases k <;> decide

/-- A letter stands for one kind. -/
theorem Kind.letter_injective : Function.Injective Kind.letter := by
  intro a b h
  have hkinds := congrArg ofLetter? h
  rw [ofLetter?_letter, ofLetter?_letter] at hkinds
  exact Option.some.inj hkinds

/-- No letter is the separator. -/
theorem Kind.letter_ne_underscore (k : Kind) : k.letter ≠ '_' := by
  cases k <;> decide

namespace Signature

/-- The characters of a symbol. -/
theorem toList_symbol (s : Signature) :
    s.symbol.toList = s.name.toList ++ '_' :: s.inputs.map Kind.letter := by
  unfold symbol
  rw [String.toList_append, String.toList_append, String.toList_ofList, String.toList_ofList,
    List.append_assoc, List.singleton_append]

/-- The letters after the name do not include the separator. -/
theorem underscore_notMem_letters (kinds : List Kind) : '_' ∉ kinds.map Kind.letter := by
  intro h
  obtain ⟨k, -, hk⟩ := List.mem_map.mp h
  exact k.letter_ne_underscore hk

/-- Both signatures have the same name and take the same inputs, whatever they return
and however many inputs they require. -/
def SameOverload (a b : Signature) : Prop := a.name = b.name ∧ a.inputs = b.inputs

instance (a b : Signature) : Decidable (a.SameOverload b) :=
  inferInstanceAs (Decidable (a.name = b.name ∧ a.inputs = b.inputs))

/-- A symbol determines name and inputs, and is determined by them. -/
theorem symbol_eq_iff {a b : Signature} : a.symbol = b.symbol ↔ a.SameOverload b := by
  constructor
  · intro h
    have hlists := congrArg String.toList h
    rw [a.toList_symbol, b.toList_symbol] at hlists
    obtain ⟨hname, hletters⟩ := eq_of_append_separator hlists
      (underscore_notMem_letters a.inputs) (underscore_notMem_letters b.inputs)
    exact ⟨String.toList_inj.mp hname, List.map_injective_iff.mpr Kind.letter_injective hletters⟩
  · rintro ⟨hname, hinputs⟩
    unfold symbol
    rw [hname, hinputs]

namespace SameOverload

variable {a b c : Signature}

/-- The order does not matter. -/
theorem symm (h : a.SameOverload b) : b.SameOverload a := ⟨h.1.symm, h.2.symm⟩

/-- Signatures that share name and inputs with one share them with each other. -/
theorem trans (h : a.SameOverload b) (h' : b.SameOverload c) : a.SameOverload c :=
  ⟨h.1.trans h'.1, h.2.trans h'.2⟩

end SameOverload

end Signature

/-! ## Tables of functions -/

open Signature

/-- Two functions differ in name or inputs. -/
def Function.Apart (f g : Function) : Prop := ¬f.signature.SameOverload g.signature

instance : Std.Symm Function.Apart := ⟨fun _ _ hapart hsame => hapart hsame.symm⟩

/-- A table holds one function for each name and inputs. -/
def Function.OnePerOverload (table : List Function) : Prop := table.Pairwise Function.Apart

/-- The functions that every machine starts with have different names. -/
theorem Function.builtins_onePerOverload : Function.OnePerOverload Function.builtins := by
  refine List.pairwise_pair.mpr fun hsame => ?_
  exact absurd hsame.1 (by decide)

variable {table : List Function} {f g : Function} {s : Signature}

/-- What is looked up by symbol has the name and the inputs that are asked for. -/
theorem Function.of_find?_symbol (h : table.find? (·.signature.symbol == s.symbol) = some f) :
    f ∈ table ∧ f.signature.SameOverload s := by
  have hsymbol := List.find?_some h
  rw [beq_iff_eq, symbol_eq_iff] at hsymbol
  exact ⟨List.mem_of_find?_eq_some h, hsymbol⟩

/-- A symbol is not found where no function has the name and the inputs. -/
theorem Function.find?_symbol_eq_none :
    table.find? (·.signature.symbol == s.symbol) = none ↔
      ∀ f ∈ table, ¬f.signature.SameOverload s := by
  rw [List.find?_eq_none]
  refine forall₂_congr fun f _ => not_congr ?_
  rw [beq_iff_eq, symbol_eq_iff]

/-- In a table with one function for each name and inputs, looking up a symbol finds the
one with the name and the inputs. -/
theorem Function.OnePerOverload.find?_symbol (h : Function.OnePerOverload table) :
    table.find? (·.signature.symbol == s.symbol) = some f ↔
      f ∈ table ∧ f.signature.SameOverload s := by
  refine ⟨Function.of_find?_symbol, fun ⟨hmem, hsame⟩ => ?_⟩
  cases hfind : table.find? (·.signature.symbol == s.symbol) with
  | none => exact absurd hsame (Function.find?_symbol_eq_none.mp hfind f hmem)
  | some g =>
    obtain ⟨hmem', hsame'⟩ := Function.of_find?_symbol hfind
    by_contra hne
    have hother : f ≠ g := fun heq => hne (by rw [heq])
    exact List.Pairwise.forall h hmem hmem' hother (hsame.trans hsame'.symm)

namespace Machine

variable {m : Machine}

/-- What stands in the place of a function after another one is registered has the name
and the inputs that stood there before. -/
theorem replaced_sameOverload (f g : Function) :
    (if g.signature.symbol == f.signature.symbol then f else g).signature.SameOverload
      g.signature := by
  split
  · rename_i heq
    exact (symbol_eq_iff.mp (beq_iff_eq.mp heq)).symm
  · exact ⟨rfl, rfl⟩

/-- Registering a function keeps all functions of other names or inputs, and puts it in
the place of those with its own. -/
theorem mem_register : g ∈ (m.register f).2.functions ↔
    g = f ∨ g ∈ m.functions ∧ ¬g.signature.SameOverload f.signature := by
  unfold register
  cases hfind : m.find? f.signature.symbol with
  | none =>
    have hother := Function.find?_symbol_eq_none.mp hfind
    dsimp only
    rw [List.mem_append, List.mem_singleton, or_comm]
    exact or_congr_right ⟨fun hg => ⟨hg, hother g hg⟩, And.left⟩
  | some old =>
    obtain ⟨hold, hsame⟩ := Function.of_find?_symbol hfind
    dsimp only
    rw [List.mem_map]
    constructor
    · rintro ⟨k, hk, rfl⟩
      split
      · exact .inl rfl
      · rename_i hne
        exact .inr ⟨hk, fun hs => hne (beq_iff_eq.mpr (symbol_eq_iff.mpr hs))⟩
    · rintro (rfl | ⟨hg, hother⟩)
      · exact ⟨old, hold, if_pos (beq_iff_eq.mpr (symbol_eq_iff.mpr hsame))⟩
      · exact ⟨g, hg, if_neg fun heq => hother (symbol_eq_iff.mp (beq_iff_eq.mp heq))⟩

/-- Registering a function returns what its symbol is looked up to be. -/
theorem register_fst (f : Function) : (m.register f).1 = m.find? f.signature.symbol := by
  unfold register
  cases m.find? f.signature.symbol <;> rfl

/-- Removing a function keeps all functions of other names or inputs. -/
theorem mem_unregister : g ∈ (m.unregister s).2.functions ↔
    g ∈ m.functions ∧ ¬g.signature.SameOverload s := by
  unfold unregister
  dsimp only
  rw [List.mem_filter, bne_iff_ne, ne_eq, symbol_eq_iff]

/-- A machine that is set up, given functions, relieved of functions and used in any
way. -/
inductive Made : Machine → Prop
  | equipped (flags : ExecuteFlags) : Made { flags }
  | flagged {m : Machine} (h : Made m) (flags : ExecuteFlags) : Made { m with flags }
  | registered {m : Machine} (h : Made m) (f : Function) : Made (m.register f).2
  | unregistered {m : Machine} (h : Made m) (s : Signature) : Made (m.unregister s).2
  | executed {m : Machine} (h : Made m) (p : Program) (inputs outputs : List Stream)
    (instances : Nat) (globals : Globals) :
    Made (m.execute p inputs outputs instances globals).2

/-- Registering a function keeps one function for each name and inputs. -/
theorem register_onePerOverload (h : Function.OnePerOverload m.functions) (f : Function) :
    Function.OnePerOverload (m.register f).2.functions := by
  unfold register
  cases hfind : m.find? f.signature.symbol with
  | none =>
    have hother := Function.find?_symbol_eq_none.mp hfind
    refine List.pairwise_append.mpr ⟨h, List.pairwise_singleton _ _, fun g hg k hk => ?_⟩
    rw [List.mem_singleton.mp hk]
    exact hother g hg
  | some old =>
    refine List.pairwise_map.mpr (h.imp fun {g k} hapart hsame => hapart ?_)
    exact ((replaced_sameOverload f g).symm.trans hsame).trans (replaced_sameOverload f k)

/-- An execution does not change the table of functions. -/
theorem functions_execute (p : Program) (inputs outputs : List Stream) (instances : Nat)
    (globals : Globals) :
    (m.execute p inputs outputs instances globals).2.functions = m.functions := by
  unfold execute
  split
  · rfl
  · split
    · rfl
    · dsimp only
      split <;> rfl

/-- However a machine is used, it keeps one function for each name and inputs. -/
theorem Made.onePerOverload (h : m.Made) : Function.OnePerOverload m.functions := by
  induction h with
  | equipped _ => exact Function.builtins_onePerOverload
  | flagged _ _ ih => exact ih
  | registered _ f ih => exact register_onePerOverload ih f
  | unregistered _ s ih => exact ih.filter _
  | executed _ p inputs outputs instances globals ih =>
    rwa [Function.OnePerOverload, functions_execute]

end Machine

/-! ## Binding -/

namespace Binding

/-- Why a slot of a program is left without a function: none has its name and inputs, or
the one that has them returns another kind or requires another number of inputs. -/
inductive Unserved (table : List Function) (slot : Signature) : MachineError → Prop
  | missing (none : ∀ f ∈ table, ¬f.signature.SameOverload slot) :
    Unserved table slot (.functionNotFound slot.symbol)
  | mismatch {f : Function} (mem : f ∈ table) (same : f.signature.SameOverload slot)
    (differs : f.signature ≠ slot) : Unserved table slot (.functionSignatureMismatch slot.symbol)

/-- A slot is served by the function with its signature. -/
theorem bindFunction_eq_ok (h : Function.OnePerOverload table) {slot : Signature}
    {native : Native} : bindFunction table slot = .ok native ↔
      ∃ f ∈ table, f.signature = slot ∧ f.native = native := by
  unfold bindFunction
  constructor
  · intro hbound
    cases hfind : table.find? (·.signature.symbol == slot.symbol) with
    | none => rw [hfind] at hbound; cases hbound
    | some f =>
      rw [hfind] at hbound
      dsimp only at hbound
      split at hbound
      · rename_i hsame
        cases hbound
        exact ⟨f, List.mem_of_find?_eq_some hfind, hsame, rfl⟩
      · cases hbound
  · rintro ⟨f, hmem, rfl, rfl⟩
    rw [h.find?_symbol.mpr ⟨hmem, rfl, rfl⟩]
    exact if_pos rfl

/-- A slot fails for one of two reasons. -/
theorem unserved_of_bindFunction {slot : Signature} {e : MachineError}
    (h : bindFunction table slot = .error e) : Unserved table slot e := by
  unfold bindFunction at h
  cases hfind : table.find? (·.signature.symbol == slot.symbol) with
  | none =>
    rw [hfind] at h
    cases h
    exact .missing (Function.find?_symbol_eq_none.mp hfind)
  | some f =>
    rw [hfind] at h
    dsimp only at h
    obtain ⟨hmem, hsame⟩ := Function.of_find?_symbol hfind
    split at h
    · cases h
    · rename_i hdiffers
      cases h
      exact .mismatch hmem hsame hdiffers

/-- The slots of a program are served by the functions with their signatures. -/
theorem bindFunctions_eq_ok (h : Function.OnePerOverload table) {p : Program}
    {natives : List Native} : bindFunctions table p = .ok natives ↔
      List.Forall₂ (fun slot native => ∃ f ∈ table, f.signature = slot ∧ f.native = native)
        p.functions natives := by
  unfold bindFunctions
  rw [mapM_eq_ok_iff]
  simp only [bindFunction_eq_ok h]

/-- Binding fails for a slot that is left without a function. -/
theorem unserved_of_bindFunctions {p : Program} {e : MachineError}
    (h : bindFunctions table p = .error e) : ∃ slot ∈ p.functions, Unserved table slot e := by
  have hreturns : Returns (fun e => ∃ slot ∈ p.functions, Unserved table slot e)
      (fun _ => True) (bindFunctions table p) :=
    .mapM fun slot hslot => .of_cause fun _ he => ⟨slot, hslot, unserved_of_bindFunction he⟩
  exact hreturns.error e h

end Binding

/-- A machine tells its functions apart by name and inputs, and by nothing else. -/
structure Machine.Discerns (m : Machine) : Prop where
  /-- A function replaces the one with its name and inputs. -/
  replaced : ∀ f old, (m.register f).1 = some old ↔
    old ∈ m.functions ∧ old.signature.SameOverload f.signature
  /-- All others stay when it is registered. -/
  registered : ∀ f g, g ∈ (m.register f).2.functions ↔
    g = f ∨ g ∈ m.functions ∧ ¬g.signature.SameOverload f.signature
  /-- The function that is removed has the name and the inputs that are given. -/
  removed : ∀ s old, (m.unregister s).1 = some old ↔
    old ∈ m.functions ∧ old.signature.SameOverload s
  /-- All others stay when it is removed. -/
  unregistered : ∀ s g, g ∈ (m.unregister s).2.functions ↔
    g ∈ m.functions ∧ ¬g.signature.SameOverload s
  /-- The slots of a program are bound to the functions with their signatures. -/
  bound : ∀ (p : Program) natives, Binding.bindFunctions m.functions p = .ok natives ↔
    List.Forall₂ (fun slot native => ∃ f ∈ m.functions, f.signature = slot ∧ f.native = native)
      p.functions natives
  /-- Where that fails, no function has the name and the inputs of some slot, or the one
  that has them differs from it otherwise. -/
  unbound : ∀ (p : Program) e, Binding.bindFunctions m.functions p = .error e →
    ∃ slot ∈ p.functions, Binding.Unserved m.functions slot e

/-- Two signatures have one symbol exactly if they have one name and take the same inputs,
whatever characters the names are made of. Hence a function that is registered replaces
only one with its name and inputs, and binding finds no function of another name or with
other inputs than it looks for. -/
theorem symbols_identify_overloads :
    (∀ a b : Signature, a.symbol = b.symbol ↔ a.name = b.name ∧ a.inputs = b.inputs) ∧
    ∀ m : Machine, m.Made → m.Discerns := by
  refine ⟨fun a b => Signature.symbol_eq_iff, fun m hmade => ?_⟩
  have hone := hmade.onePerOverload
  exact {
    replaced := fun f old => by rw [Machine.register_fst]; exact hone.find?_symbol
    registered := fun f g => Machine.mem_register
    removed := fun s old => hone.find?_symbol
    unregistered := fun s g => Machine.mem_unregister
    bound := fun p natives => Binding.bindFunctions_eq_ok hone
    unbound := fun p e => Binding.unserved_of_bindFunctions }

namespace Suffixed

/-- A function whose symbol ends in its input. -/
def blend : Function := ⟨.ofInputs "blend" [.int] .int, Native.sumInts⟩

/-- A function whose name is that symbol. -/
def blendInt : Function := ⟨.ofInputs "blend_I" [.int] .int, Native.sumInts⟩

/-- A machine with the first one. -/
def machine : Machine := (({} : Machine).register blend).2

/-- The machine is set up and given a function. -/
theorem made : machine.Made := .registered (.equipped _) blend

end Suffixed

/-- A function whose name is the symbol of another one has another symbol and does not
replace it. -/
theorem symbols_identify_overloads_suffixed :
    Suffixed.machine.Made ∧
    Suffixed.blend.signature.symbol = Suffixed.blendInt.signature.name ∧
    Suffixed.blend.signature.symbol ≠ Suffixed.blendInt.signature.symbol ∧
    Suffixed.blend ∈ (Suffixed.machine.register Suffixed.blendInt).2.functions := by
  obtain ⟨hsymbols, hmachines⟩ := symbols_identify_overloads
  refine ⟨Suffixed.made, by decide, ?_, ?_⟩
  · rw [ne_eq, hsymbols]
    decide
  · have hmem : Suffixed.blend ∈ Suffixed.machine.functions :=
      Machine.mem_register.mpr (.inl rfl)
    exact ((hmachines _ Suffixed.made).registered _ _).mpr (.inr ⟨hmem, by decide⟩)

end LaneGraph
