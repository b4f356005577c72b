import Adhoc.Proofs.LocalSlots
import Adhoc.Proofs.Tiling

namespace Adhoc

open List Array

variable {op : Operation}

namespace SymbolTable

variable {t : SymbolTable} {x : Symbol} {name : String}

/-- The symbol is the entry at its id. -/
def Lists (t : SymbolTable) (x : Symbol) : Prop := t.entries[x.id]? = some x

/-- Entries are numbered in order. -/
structure Proper (t : SymbolTable) : Prop where
  ids : ∀ (i : Nat) (x : Symbol), t.entries[i]? = some x → x.id = i

theorem Proper.lists_of_find? (h : t.Proper) (hx : t.find? name = some x) : t.Lists x := by
  obtain ⟨i, hget, -⟩ := find?_eq_some.1 hx
  rw [Lists, h.ids i x hget, hget]

theorem find?_of_lists (hx : t.Lists x) : t.find? x.name = some x :=
  find?_eq_some.2 ⟨x.id, hx, rfl⟩

theorem lists_intern (name : String) (bytePerChar : Bool) (hx : t.Lists x) :
    (t.intern name bytePerChar).2.Lists x := by
  cases h : t.find? name with
  | some y => rwa [intern_of_some h]
  | none =>
    have hlt := (Array.getElem?_eq_some_iff.1 hx).1
    rw [Lists, (intern_of_none bytePerChar h).2.1, Array.getElem?_push, if_neg (Nat.ne_of_lt hlt)]
    exact hx

theorem Proper.intern (h : t.Proper) (name : String) (bytePerChar : Bool) :
    (t.intern name bytePerChar).2.Proper := by
  cases hf : t.find? name with
  | some y => rwa [intern_of_some hf]
  | none =>
    refine ⟨fun i x hx => ?_⟩
    rw [(intern_of_none bytePerChar hf).2.1, getElem?_push] at hx
    split at hx
    · rename_i hi
      rw [← Option.some.inj hx, hi]
    · exact h.ids i x hx

theorem Proper.lists_new (h : t.Proper) (name : String) (bytePerChar : Bool) :
    (t.intern name bytePerChar).2.Lists (t.intern name bytePerChar).1 :=
  (h.intern name bytePerChar).lists_of_find? (t.intern_found name bytePerChar)

end SymbolTable

/-- The symbols that an operation carries. -/
@[simp]
def Operation.symbols : Operation → List Symbol
  | .named _ x => [x]
  | .pathed _ xs | .variable _ xs _ => xs
  | .classDefine x xs => x :: xs
  | .importName path target asName => path ++ [target, asName]
  | .subroutine name _ _ => name.toList
  | _ => []

/-- All symbols that a frame uses, apart from those of the frames in it. -/
def Frame.symbols (g : Frame) : List Symbol :=
  g.header.source.toList ++ g.header.parameters ++ g.header.captured ++
    g.code.flatMap (·.operation.symbols)

namespace Operation

/-- Whether the operation can be written once it has a target, if it needs one. -/
def isWritable : Operation → Bool
  | .unverified _ | .pathed .attributePush [] => false
  | _ => true

/-- Whether the operation waits for its target. -/
def isUnaimed : Operation → Bool
  | .jump _ none => true
  | _ => false

theorem isUnaimed_iff : op.isUnaimed = true ↔ ∃ kind, op = .jump kind none := by
  constructor
  · intro h
    unfold isUnaimed at h
    split at h
    · exact ⟨_, rfl⟩
    · cases h
  · rintro ⟨kind, rfl⟩
    rfl

theorem effect_of_isWritable (v : Version) (h : op.isWritable = true) :
    ∃ moves, op.effect v = .ok moves := by
  cases op with
  | unverified => cases h
  | _ => exact ⟨_, rfl⟩

end Operation

theorem Frame.any_preorder (p : Operation → Bool) (g : Frame) :
    (g.preorder.any fun h => h.code.any fun ins => p ins.operation) =
      g.code.any fun ins => p ins.operation ||
        ins.frames.any fun h => h.code.any fun ins => p ins.operation := by
  obtain ⟨header, code⟩ := g
  rw [Bool.eq_iff_iff]
  simp only [List.any_eq_true, Frame.preorder, List.mem_cons, mem_framesOf, Bool.or_eq_true]
  constructor
  · rintro ⟨h, rfl | ⟨ins, hins, hh⟩, hl⟩
    · obtain ⟨ins, hins, hl⟩ := hl
      exact ⟨ins, hins, .inl hl⟩
    · exact ⟨ins, hins, .inr ⟨h, hh, hl⟩⟩
  · rintro ⟨ins, hins, hl | ⟨h, hh, hl⟩⟩
    · exact ⟨_, .inl rfl, ins, hins, hl⟩
    · exact ⟨h, .inr ⟨ins, hins, hh⟩, hl⟩

/-- Whether a jump of the frame itself has no target. -/
def Frame.isLoose (g : Frame) : Bool := g.code.any (·.operation.isUnaimed)

/-- Whether the instruction is a jump without a target or holds a frame with one. -/
def Instruction.isLoose (ins : Instruction) : Bool :=
  ins.operation.isUnaimed || ins.frames.any Frame.isLoose

theorem Frame.any_isLoose (g : Frame) :
    g.preorder.any Frame.isLoose = g.code.any Instruction.isLoose :=
  g.any_preorder Operation.isUnaimed

section

variable (t : SymbolTable)

structure Frame.Sound (g : Frame) : Prop where
  source : g.header.source.isSome = true
  symbols : ∀ x ∈ g.symbols, t.Lists x
  writable : ∀ ins ∈ g.code, ins.operation.isWritable = true

structure Instruction.Sound (ins : Instruction) : Prop where
  symbols : ∀ x ∈ ins.operation.symbols, t.Lists x
  writable : ins.operation.isWritable = true
  frames : ∀ g ∈ ins.frames, g.Sound t

structure Draft.Sound (d : Draft) : Prop where
  source : ∃ x, d.source = some x ∧ t.Lists x
  parameters : ∀ x ∈ d.parameters, t.Lists x
  captured : ∀ x ∈ d.captured, t.Lists x
  code : ∀ ins ∈ d.code, ins.Sound t

end

section

variable {t t' : SymbolTable}

theorem Frame.Sound.mono {g : Frame} (h : g.Sound t) (ht : ∀ x, t.Lists x → t'.Lists x) : g.Sound t' :=
  ⟨h.source, fun x hx => ht x (h.symbols x hx), h.writable⟩

theorem Instruction.Sound.mono {ins : Instruction} (h : ins.Sound t)
    (ht : ∀ x, t.Lists x → t'.Lists x) : ins.Sound t' :=
  ⟨fun x hx => ht x (h.symbols x hx), h.writable, fun g hg => (h.frames g hg).mono ht⟩

theorem Instruction.Sound.of_symbols (line : UInt32) (hop : op.isWritable = true)
    (hf : op.frames = []) (hx : ∀ x ∈ op.symbols, t.Lists x) : Instruction.Sound t ⟨line, op⟩ := by
  refine ⟨hx, hop, fun g hg => ?_⟩
  rw [Instruction.frames, hf] at hg
  cases hg

theorem Instruction.isLoose_of_frames {line : UInt32} (hf : op.frames = []) :
    Instruction.isLoose ⟨line, op⟩ = op.isUnaimed := by
  rw [isLoose, Instruction.frames, hf, any_nil, Bool.or_false]

namespace Draft

variable {d e : Draft}

theorem Sound.mono (h : d.Sound t) (ht : ∀ x, t.Lists x → t'.Lists x) : d.Sound t' := by
  obtain ⟨x, hx, hl⟩ := h.source
  exact ⟨⟨x, hx, ht x hl⟩, fun x hx => ht x (h.parameters x hx), fun x hx => ht x (h.captured x hx),
    fun ins hins => (h.code ins hins).mono ht⟩

/-- A finished frame and all frames in it are sound. -/
theorem Sound.finish (h : d.Sound t) : ∀ g ∈ d.finish.preorder, g.Sound t := by
  obtain ⟨x, hx, hl⟩ := h.source
  intro g hg
  rcases mem_cons.1 (show g ∈ d.finish :: framesOf d.code.toList from hg) with rfl | hg
  · refine ⟨?_, fun y hy => ?_, fun ins hins => ?_⟩
    · rw [show d.finish.header.source = some x from hx]
      rfl
    · simp only [Frame.symbols, Draft.finish, hx, Option.toList_some, List.mem_append,
        List.mem_singleton, List.mem_flatMap, mem_toList_iff] at hy
      rcases hy with ((rfl | hy) | hy) | ⟨ins, hins, hy⟩
      · exact hl
      · exact h.parameters y hy
      · exact h.captured y hy
      · exact (h.code ins hins).symbols y hy
    · exact (h.code ins (mem_toList_iff.1 hins)).writable
  · obtain ⟨ins, hins, hg⟩ := mem_framesOf.1 hg
    exact (h.code ins (mem_toList_iff.1 hins)).frames g hg

/-- The number of loose instructions. -/
def loose (d : Draft) : Nat := d.code.toList.countP Instruction.isLoose

/-- The number of jumps that are noted in the open scopes. -/
def noted (d : Draft) : Nat := d.sketch.notes.length

theorem loose_pos : 0 < d.loose ↔ d.finish.preorder.any Frame.isLoose = true := by
  rw [Frame.any_isLoose, loose, List.countP_pos_iff, List.any_eq_true]
  rfl

end Draft

end

end Adhoc
