import Mathlib.Order.ConditionallyCompleteLattice.Basic
import Adhoc.Proofs.Layout

namespace Adhoc

variable {kind : ScopeKind} {lib : Library} {v : Version} {f : String} {D : Trail}

/-- What a part can do beyond its own code. -/
inductive Slip
  /-- A `continue` with the label goes to a loop around the part. -/
  | leaves (label : Option String)
  /-- A `continue` gets no target. -/
  | strays
  /-- The code that follows comes from another file. -/
  | renames (path : String)
  /-- An include stands under `n` others. -/
  | nests (n : Nat)

namespace Slip

/-- Whether it concerns more than the frame that it happens in. -/
def isShared : Slip → Bool
  | .leaves _ => false
  | _ => true

/-- What it is for an include that brings it in. The source is the same again after an include. -/
def included? : Slip → Option Slip
  | .nests n => some (.nests (n + 1))
  | .renames _ => none
  | e => some e

end Slip

/-- Whether a `continue` with the label goes round the loop. -/
def ScopeKind.catches (kind : ScopeKind) (label : Option String) : Bool :=
  match label with
  | some l => kind.label? == some l
  | none => kind.isLoop

namespace ScopeKind

theorem catches_of_not_isLoop (h : kind.isLoop = false) (label : Option String) :
    kind.catches label = false := by
  cases kind with
  | loop => cases h
  | _ => cases label <;> rfl

@[simp] theorem catches_loop_none (label : Option String) : (loop label).catches none = true := rfl

@[simp] theorem catches_loop_some {label : Option String} {l : String} :
    (loop label).catches (some l) = true ↔ label = some l := beq_iff_eq

end ScopeKind

/-- What passes a scope of the kind. -/
def Slip.past (kind : ScopeKind) (es : Set Slip) : Set Slip :=
  {e | e ∈ es ∧ ∀ label, e = .leaves label → kind.catches label = false}

namespace Part

/-- What a part does by itself. -/
def slip? : Part → Option Slip
  | .stmt (.continueLoop _ label) => some (.leaves label)
  | .stmt (.sourceFile _ path) => some (.renames path)
  | _ => none

/-- Whether it ends at the part. -/
def catches : Part → Slip → Bool
  | .stmt (.forLoop ..), .leaves none | .stmt (.foreach ..), .leaves none
  | .stmt (.whileLoop ..), .leaves none | .stmt (.doWhile ..), .leaves none => true
  | .stmt (.labeled _ label _), .leaves (some l) => l == label
  | _, _ => false

/-- The update of a `for` loop, and the label of a `continue` that goes there. -/
def round? : Part → Option (Option String × Expr)
  | .stmt (.forLoop _ _ _ (some update) _) => some (none, update)
  | .stmt (.labeled _ label (.forLoop _ _ _ (some update) _)) => some (some label, update)
  | _ => none

/-- The path of an include. -/
def path? : Part → Option String
  | .stmt (.includeFile _ path) => some path
  | _ => none

end Part

section

variable (lib : Library) (v : Version)

/-- All that escapes from a part. -/
inductive Slips : Part → Slip → Prop
  | own {p e} : p.slip? = some e → Slips p e
  | part {p q e} : q ∈ p.parts v → p.catches e = false → Slips q e → Slips p e
  | body {p n e} : p.body? = some n → e.isShared = true → Slips n.part e → Slips p e
  | strays {p label update} : p.round? = some (label, update) →
    Slips (.expr update) (.leaves label) → Slips p .strays
  | nests {p path program} : p.path? = some path → lib.Includes path program →
    Slips p (.nests 0)
  | included {p path program s e e'} : p.path? = some path → lib.Includes path program →
    s ∈ program.body → Slips (.stmt s) e' → e'.included? = some e → Slips p e

theorem slips_iff {p : Part} {e : Slip} : Slips lib v p e ↔
    p.slip? = some e ∨ (∃ q ∈ p.parts v, p.catches e = false ∧ Slips lib v q e) ∨
    (∃ n, p.body? = some n ∧ e.isShared = true ∧ Slips lib v n.part e) ∨
    (∃ label update, p.round? = some (label, update) ∧ e = .strays ∧
      Slips lib v (.expr update) (.leaves label)) ∨
    ∃ path program, p.path? = some path ∧ lib.Includes path program ∧
      (e = .nests 0 ∨ ∃ s ∈ program.body, ∃ e', Slips lib v (.stmt s) e' ∧ e'.included? = some e) := by
  constructor
  · intro h
    cases h with
    | own h => exact .inl h
    | part hq hc h => exact .inr (.inl ⟨_, hq, hc, h⟩)
    | body hn he h => exact .inr (.inr (.inl ⟨_, hn, he, h⟩))
    | strays hr h => exact .inr (.inr (.inr (.inl ⟨_, _, hr, rfl, h⟩)))
    | nests hp hi => exact .inr (.inr (.inr (.inr ⟨_, _, hp, hi, .inl rfl⟩)))
    | included hp hi hs h he =>
      exact .inr (.inr (.inr (.inr ⟨_, _, hp, hi, .inr ⟨_, hs, _, h, he⟩⟩)))
  · rintro (h | ⟨q, hq, hc, h⟩ | ⟨n, hn, he, h⟩ | ⟨label, update, hr, rfl, h⟩ |
      ⟨path, program, hp, hi, rfl | ⟨s, hs, e', h, he⟩⟩)
    · exact .own h
    · exact .part hq hc h
    · exact .body hn he h
    · exact .strays hr h
    · exact .nests hp hi
    · exact .included hp hi hs h he

end

/-- What escapes, for every folder that includes may be looked for in. -/
abbrev Trail := String → Set Slip

/-- The library with includes in the given folder. -/
def Library.at (lib : Library) (folder : String) : Library := { lib with includeFolder := some folder }

theorem Library.at_includes {folder path : String} {program : Program} :
    (lib.at folder).Includes path program ↔ ∃ location,
      lib.locate? folder path = some location ∧ lib.sources.read? location = some program := by
  constructor
  · rintro ⟨f, location, hf, hl, hr⟩
    obtain rfl := hf folder rfl
    exact ⟨location, hl, hr⟩
  · rintro ⟨location, hl, hr⟩
    exact ⟨folder, location, fun f hf => Option.some.inj hf, hl, hr⟩

namespace Trail

/-- The names that the source gets. -/
def names (D : Trail) : Set String := {name | ∃ f, .renames name ∈ D f}

def past (kind : ScopeKind) (D : Trail) : Trail := fun f => Slip.past kind (D f)

/-- A jump strays if one of the jumps goes round the loop. -/
def stray (kind : ScopeKind) (D : Trail) : Trail := fun f =>
  {e | e = .strays ∧ ∃ label, .leaves label ∈ D f ∧ kind.catches label = true}

/-- What concerns more than the frame. -/
def shared (D : Trail) : Trail := fun f => {e | e ∈ D f ∧ e.isShared = true}

/-- What an include brings in. -/
def included (D : Trail) : Trail := fun f => {e | ∃ e' ∈ D f, e'.included? = some e}

section

variable (lib : Library) (v : Version)

def of (p : Part) : Trail := fun f => {e | Slips (lib.at f) v p e}

def all (ps : List Part) : Trail := fun f => {e | ∃ p ∈ ps, Slips (lib.at f) v p e}

end

variable {p : Part} {ps qs : List Part} {E : Trail} {e : Slip}

theorem mem_sup : e ∈ (D ⊔ E) f ↔ e ∈ D f ∨ e ∈ E f := Iff.rfl

theorem notMem_bot : e ∉ (⊥ : Trail) f := fun h => h

theorem names_sup : (D ⊔ E).names = D.names ∪ E.names := by
  ext name
  exact exists_or

@[simp] theorem past_bot : (⊥ : Trail).past kind = ⊥ := by
  funext f
  exact Set.eq_empty_of_forall_notMem fun e he => he.1

@[simp] theorem stray_bot : (⊥ : Trail).stray kind = ⊥ := by
  funext f
  refine Set.eq_empty_of_forall_notMem fun e he => ?_
  obtain ⟨-, label, h, -⟩ := he
  exact h

theorem past_sup : (D ⊔ E).past kind = D.past kind ⊔ E.past kind := by
  funext f
  ext e
  exact or_and_right

theorem past_of_not_isLoop (h : kind.isLoop = false) : D.past kind = D := by
  funext f
  ext e
  exact and_iff_left fun label _ => kind.catches_of_not_isLoop h label

theorem stray_of_not_isLoop (h : kind.isLoop = false) : D.stray kind = ⊥ := by
  funext f
  refine Set.eq_empty_of_forall_notMem fun e he => ?_
  obtain ⟨-, label, -, hc⟩ := he
  rw [kind.catches_of_not_isLoop h] at hc
  cases hc

theorem names_past : (D.past kind).names = D.names := by
  ext name
  exact exists_congr fun f => ⟨fun h => h.1, fun h => ⟨h, fun label hl => nomatch hl⟩⟩

theorem names_shared : D.shared.names = D.names := by
  ext name
  exact exists_congr fun f => ⟨fun h => h.1, fun h => ⟨h, rfl⟩⟩

@[simp] theorem all_nil : all lib v [] = ⊥ := by
  funext f
  exact Set.eq_empty_of_forall_notMem fun e he => by simp [all] at he

theorem all_append : all lib v (ps ++ qs) = all lib v ps ⊔ all lib v qs := by
  funext f
  ext e
  simp [all, or_and_right, exists_or]

theorem all_singleton : all lib v [p] = of lib v p := by
  funext f
  ext e
  simp [all, of]

theorem all_cons : all lib v (p :: ps) = of lib v p ⊔ all lib v ps := by
  rw [← all_singleton, ← all_append, List.singleton_append]

theorem mem_of_iff (hp : p.path? = none) : e ∈ of lib v p f ↔
    p.slip? = some e ∨ (e ∈ all lib v (p.parts v) f ∧ p.catches e = false) ∨
    (∃ n, p.body? = some n ∧ e ∈ (of lib v n.part).shared f) ∨
    ∃ label update, p.round? = some (label, update) ∧ e = .strays ∧
      .leaves label ∈ of lib v (.expr update) f := by
  rw [of, Set.mem_ofPred_eq, slips_iff]
  simp only [hp, reduceCtorEq, false_and, exists_false, or_false]
  refine or_congr_right (or_congr ?_ (or_congr ?_ Iff.rfl))
  · exact ⟨fun ⟨q, hq, hc, h⟩ => ⟨⟨q, hq, h⟩, hc⟩, fun ⟨⟨q, hq, h⟩, hc⟩ => ⟨q, hq, hc, h⟩⟩
  · exact exists_congr fun n => and_congr_right fun _ => and_comm

end Trail

/-- Whether exactly that escapes from the part which escapes from its parts. -/
def Part.isThrough (p : Part) : Bool :=
  p.body?.isNone && match p with
  | .stmt (.forLoop ..) | .stmt (.foreach ..) | .stmt (.whileLoop ..) | .stmt (.doWhile ..)
  | .stmt (.labeled ..) | .stmt (.continueLoop ..) | .stmt (.sourceFile ..)
  | .stmt (.includeFile ..) => false
  | _ => true

namespace Trail

variable {p : Part} {e : Slip}

theorem of_through (hp : p.isThrough = true) : of lib v p = all lib v (p.parts v) := by
  funext f
  ext e
  simp only [Part.isThrough, Bool.and_eq_true, Option.isNone_iff_eq_none] at hp
  obtain ⟨hbody, hp⟩ := hp
  have hcases : p.path? = none ∧ p.slip? = none ∧ p.round? = none ∧ p.catches e = false := by
    cases p with
    | expr => exact ⟨rfl, rfl, rfl, rfl⟩
    | stmt s => cases s <;> first | exact ⟨rfl, rfl, rfl, rfl⟩ | cases hp
  obtain ⟨hpath, hslip, hround, hcatches⟩ := hcases
  rw [mem_of_iff hpath]
  simp [hslip, hround, hcatches, hbody]

theorem of_routine {n : Node} (hn : p.body? = some n) :
    of lib v p = all lib v (p.parts v) ⊔ (of lib v n.part).shared := by
  funext f
  ext e
  have hcases : p.path? = none ∧ p.slip? = none ∧ p.round? = none ∧ p.catches e = false := by
    cases p with
    | expr => exact ⟨rfl, rfl, rfl, rfl⟩
    | stmt s => cases s <;> first | exact ⟨rfl, rfl, rfl, rfl⟩ | cases hn
  obtain ⟨hpath, hslip, hround, hcatches⟩ := hcases
  rw [mem_of_iff hpath, mem_sup]
  simp [hslip, hround, hcatches, hn]

end Trail

namespace Stmt

def isLoop : Stmt → Bool
  | .forLoop .. | .foreach .. | .whileLoop .. | .doWhile .. => true
  | _ => false

/-- The update of a `for` loop. -/
def updates : Stmt → List Part
  | .forLoop _ _ _ update _ => update.toList.map .expr
  | _ => []

end Stmt

namespace Trail

variable {e : Slip} {loc : Loc}

/-- What escapes from a loop that may have a label. -/
def loop (lib : Library) (v : Version) (label : Option String) (s : Stmt) : Trail :=
  (all lib v (s.parts v)).past (.loop label) ⊔ (all lib v s.updates).stray (.loop label)

theorem mem_stray : e ∈ D.stray kind f ↔
    e = .strays ∧ ∃ label, .leaves label ∈ D f ∧ kind.catches label = true := Iff.rfl

theorem mem_past : e ∈ D.past kind f ↔
    e ∈ D f ∧ ∀ label, kind.catches label = true → e ≠ .leaves label := by
  refine and_congr_right fun _ => forall_congr' fun label => ?_
  rw [← Bool.not_eq_true]
  exact ⟨fun h hc he => h he hc, fun h he hc => h hc he⟩

theorem mem_loop_none {s : Stmt} : e ∈ loop lib v none s f ↔
    e ∈ all lib v (s.parts v) f ∧ e ≠ .leaves none ∨
      e = .strays ∧ .leaves none ∈ all lib v s.updates f := by
  have hkind : ∀ label, (ScopeKind.loop none).catches label = true ↔ label = none := by
    rintro (_ | l) <;> simp
  rw [loop, mem_sup, mem_past, mem_stray]
  simp only [hkind, forall_eq, exists_eq_right]

theorem mem_loop_some {s : Stmt} {label : String} : e ∈ loop lib v (some label) s f ↔
    e ∈ all lib v (s.parts v) f ∧ e ≠ .leaves none ∧ e ≠ .leaves (some label) ∨
      e = .strays ∧
        (.leaves none ∈ all lib v s.updates f ∨ .leaves (some label) ∈ all lib v s.updates f) := by
  have hkind : ∀ l, (ScopeKind.loop (some label)).catches l = true ↔ l = none ∨ l = some label := by
    rintro (_ | l)
    · simp
    · rw [ScopeKind.catches_loop_some]
      simp [eq_comm]
  rw [loop, mem_sup, mem_past, mem_stray]
  simp only [hkind, or_imp, forall_and, forall_eq, and_or_left, exists_or, exists_eq_right]

theorem of_loop {s : Stmt} (hs : s.isLoop = true) : of lib v (.stmt s) = loop lib v none s := by
  funext f
  ext e
  have hcases : (Part.stmt s).path? = none ∧ (Part.stmt s).slip? = none ∧
      (Part.stmt s).body? = none ∧ ((Part.stmt s).catches e = false ↔ e ≠ .leaves none) := by
    cases s
    case forLoop | foreach | whileLoop | doWhile =>
      exact ⟨rfl, rfl, rfl, by rcases e with (_ | l) | _ | _ | _ <;> simp [Part.catches]⟩
    all_goals cases hs
  have hround : (∃ label update, (Part.stmt s).round? = some (label, update) ∧ e = .strays ∧
      Slip.leaves label ∈ of lib v (.expr update) f) ↔
      e = .strays ∧ .leaves none ∈ all lib v s.updates f := by
    cases s
    case forLoop loc init test update body =>
      cases update <;> simp [Part.round?, Stmt.updates, all_singleton]
    case foreach | whileLoop | doWhile => simp [Part.round?, Stmt.updates]
    all_goals cases hs
  obtain ⟨hpath, hslip, hbody, hcatches⟩ := hcases
  rw [mem_of_iff hpath, hround, mem_loop_none]
  simp only [hslip, hbody, hcatches, reduceCtorEq, false_and, exists_false, false_or]
  exact Iff.rfl

theorem of_labeled {label : String} {s : Stmt} (hs : s.isLoop = true) :
    of lib v (.stmt (.labeled loc label s)) = loop lib v (some label) s := by
  funext f
  ext e
  have hcatches : (Part.stmt (.labeled loc label s)).catches e = false ↔ e ≠ .leaves (some label) := by
    rcases e with (_ | l) | _ | _ | _ <;> simp [Part.catches]
  have hround : (∃ l update, (Part.stmt (.labeled loc label s)).round? = some (l, update) ∧
      e = .strays ∧ Slip.leaves l ∈ of lib v (.expr update) f) ↔
      e = .strays ∧ .leaves (some label) ∈ all lib v s.updates f := by
    cases s
    case forLoop loc init test update body =>
      cases update <;> simp [Part.round?, Stmt.updates, all_singleton]
    case foreach | whileLoop | doWhile => simp [Part.round?, Stmt.updates]
    all_goals cases hs
  rw [mem_of_iff rfl, hround, hcatches,
    show (Part.stmt (.labeled loc label s)).parts v = [.stmt s] from rfl, all_singleton, of_loop hs,
    mem_loop_none, mem_loop_some]
  simp only [Part.slip?, Part.body?, reduceCtorEq, false_and, exists_false, false_or]
  constructor
  · rintro (⟨⟨he, hn⟩ | ⟨he, hl⟩, hlabel⟩ | ⟨he, hl⟩)
    · exact .inl ⟨he, hn, hlabel⟩
    · exact .inr ⟨he, .inl hl⟩
    · exact .inr ⟨he, .inr hl⟩
  · rintro (⟨he, hn, hlabel⟩ | ⟨rfl, hl | hl⟩)
    · exact .inl ⟨.inl ⟨he, hn⟩, hlabel⟩
    · exact .inl ⟨.inr ⟨rfl, hl⟩, by simp⟩
    · exact .inr ⟨rfl, hl⟩

theorem of_leaf {p : Part} {x : Slip} (hpath : p.path? = none) (hx : p.slip? = some x)
    (hparts : p.parts v = []) (hbody : p.body? = none) (hround : p.round? = none) :
    of lib v p = fun _ => {x} := by
  funext f
  ext e
  rw [mem_of_iff hpath, hx, hparts, all_nil, hbody, hround]
  simp only [reduceCtorEq, false_and, exists_false, or_false, Option.some.injEq]
  exact ⟨fun h => h.elim Eq.symm fun h => h.1.elim, fun h => .inl h.symm⟩

theorem mem_of_includeFile {path : String} :
    e ∈ of lib v (.stmt (.includeFile loc path)) f ↔
      ∃ program, (lib.at f).Includes path program ∧
        (e = .nests 0 ∨ e ∈ (all lib v (program.body.map .stmt)).included f) := by
  rw [of, Set.mem_ofPred_eq, slips_iff]
  simp only [Part.slip?, Part.parts, Stmt.parts, Part.body?, Part.round?, Part.path?, reduceCtorEq,
    List.not_mem_nil, false_and, exists_false, false_or, Option.some.injEq]
  constructor
  · rintro ⟨_, program, rfl, hi, h⟩
    refine ⟨program, hi, h.imp_right ?_⟩
    rintro ⟨s, hs, e', h, he⟩
    exact ⟨e', ⟨.stmt s, List.mem_map_of_mem hs, h⟩, he⟩
  · rintro ⟨program, hi, h⟩
    refine ⟨path, program, rfl, hi, h.imp_right ?_⟩
    rintro ⟨e', ⟨q, hq, h⟩, he⟩
    obtain ⟨s, hs, rfl⟩ := List.mem_map.1 hq
    exact ⟨s, hs, e', h, he⟩

end Trail

end Adhoc
