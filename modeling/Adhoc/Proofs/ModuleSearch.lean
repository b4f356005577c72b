import Adhoc.ModuleTree
import Mathlib

namespace Adhoc.ModuleTree

open List

/-- What may be asked of a tree. A member may be defined in any module, also in the current one. -/
inductive Call
  | enter (name : String)
  | leave
  | define (id : Nat) (kind : MemberKind) (symbol : Symbol)

variable {t : ModuleTree} {id : Nat} {ids : List Nat} {symbol : Symbol} {calls : List Call}

def Call.run (t : ModuleTree) : Call → ModuleTree
  | enter name => (t.enter name).2
  | leave => t.leave
  | define id kind symbol => (t.defineIn id kind symbol).2

/-- The tree after the calls. -/
def after (t : ModuleTree) (calls : List Call) : ModuleTree := calls.foldl Call.run t

theorem after_append (calls rest : List Call) : t.after (calls ++ rest) = (t.after calls).after rest :=
  foldl_append

/-- Every module that is entered is left again, and no other one is. -/
inductive Balanced : List Call → Prop
  | nil : Balanced []
  | define (id : Nat) (kind : MemberKind) (symbol : Symbol) {rest : List Call} :
    Balanced rest → Balanced (.define id kind symbol :: rest)
  | enter (name : String) {inner rest : List Call} :
    Balanced inner → Balanced rest → Balanced (.enter name :: (inner ++ .leave :: rest))

/-- The search for a static or an attribute goes from a module to its parent, however often. It has
the result with which it ends. -/
inductive Search (t : ModuleTree) (symbol : Symbol) : Option Nat → Bool → Prop
  | outside : Search t symbol none false
  | found {id : Nat} {m : Module} : t.get? id = some m → m.declares symbol = true →
    Search t symbol (some id) true
  | outward {id : Nat} {m : Module} {result : Bool} : t.get? id = some m → m.declares symbol = false →
    Search t symbol m.parent result → Search t symbol (some id) result

theorem Search.unique {start : Option Nat} {a b : Bool} (h : t.Search symbol start a)
    (h' : t.Search symbol start b) : a = b := by
  induction h with
  | outside => cases h'; rfl
  | found => cases h' <;> simp_all
  | outward hm _ _ ih =>
    cases h' with
    | found => simp_all
    | outward hm' _ hr => exact ih (Option.some.inj (hm.symm.trans hm') ▸ hr)

def parent? (t : ModuleTree) (id : Nat) : Option (Option Nat) := (t.get? id).map (·.parent)

/-- The symbol is a member of the module. -/
def Holds (t : ModuleTree) (id : Nat) (kind : MemberKind) (symbol : Symbol) : Prop :=
  ∃ m, t.get? id = some m ∧ m.has kind symbol = true

theorem get?_enter (name : String) : (t.enter name).2.get? id =
    if id = t.modules.size then some ⟨name, some t.current, [], [], []⟩ else t.get? id :=
  Array.getElem?_push

theorem get?_leave : t.leave.get? id = t.get? id := by
  unfold leave
  split <;> rfl

theorem leave_path {parent : Nat} {outer : List Nat} (h : t.path = id :: parent :: outer) :
    t.leave.path = parent :: outer := by
  rw [leave, h]

theorem get?_defineIn (i : Nat) (kind : MemberKind) (x : Symbol) : (t.defineIn i kind x).2.get? id =
    (t.get? id).map fun m => if id = i ∧ m.has kind x = false then m.add x kind else m := by
  unfold defineIn get?
  grind

theorem parent?_run {c : Call} {p : Option Nat} : (c.run t).parent? id = some p ↔
    t.parent? id = some p ∨ (∃ name, c = .enter name) ∧ id = t.modules.size ∧ p = some t.current := by
  cases c with
  | enter name =>
    simp only [Call.run, parent?, get?_enter]
    split
    next hid => simp [get?, hid, eq_comm]
    next hid => simp [hid]
  | leave => simp [Call.run, parent?, get?_leave]
  | define i kind x =>
    have hadd (m : Module) : (m.add x kind).parent = m.parent := by cases kind <;> rfl
    simp [Call.run, parent?, get?_defineIn, Function.comp_def, apply_ite, hadd]

theorem holds_run {c : Call} {kind : MemberKind} : (c.run t).Holds id kind symbol ↔
    t.Holds id kind symbol ∨ c = .define id kind symbol ∧ id < t.modules.size := by
  cases c with
  | enter name =>
    simp only [Holds, Call.run, get?_enter]
    split
    next hid => cases kind <;> simp [get?, hid, Module.has, Module.membersOf]
    next => simp
  | leave => simp [Holds, Call.run, get?_leave]
  | define i k x =>
    have hadd (m : Module) : (m.add x k).has kind symbol = true ↔
        m.has kind symbol = true ∨ kind = k ∧ symbol = x := by
      cases k <;> cases kind <;> simp [Module.add, Module.has, Module.membersOf]
    have hsize : id < t.modules.size ↔ (t.get? id).isSome = true := by simp [get?]
    simp only [Holds, Call.run, get?_defineIn, Call.define.injEq, hsize]
    cases t.get? id with
    | none => simp
    | some m =>
      simp only [Option.map_some, Option.some.injEq, exists_eq_left', Option.isSome_some, and_true]
      split <;> grind

/-- Each module of the list is inside the next one, and the last one is inside no other. -/
inductive Lineage (t : ModuleTree) : List Nat → Prop
  | outside : Lineage t []
  | module {id : Nat} {ids : List Nat} : t.parent? id = some ids.head? → Lineage t ids →
    Lineage t (id :: ids)

theorem Lineage.run (h : t.Lineage ids) (c : Call) : (c.run t).Lineage ids := by
  induction h with
  | outside => exact .outside
  | module hparent _ ih => exact .module (parent?_run.2 (.inl hparent)) ih

theorem Lineage.after (h : t.Lineage ids) : (t.after calls).Lineage ids := by
  induction calls generalizing t with
  | nil => exact h
  | cons c calls ih => exact ih (h.run c)

theorem Lineage.unique {ids' : List Nat} (h : t.Lineage ids) (h' : t.Lineage ids')
    (hhead : ids.head? = ids'.head?) : ids = ids' := by
  induction h generalizing ids' with
  | outside => cases h' with
    | outside => rfl
    | module => cases hhead
  | module hparent _ ih => cases h' with
    | outside => cases hhead
    | module hparent' hids =>
      cases hhead
      rw [ih hids (Option.some.inj (hparent.symm.trans hparent'))]

/-- Every module comes after its parent, and the open modules lead from the current one to the top
level. -/
structure Rooted (t : ModuleTree) : Prop where
  ordered : ∀ {id parent : Nat}, t.parent? id = some (some parent) → parent < id
  lineage : t.Lineage t.path
  last : t.path.getLast? = some 0

theorem rooted_empty : Rooted {} where
  ordered h := by
    obtain ⟨m, hm, hparent⟩ := Option.map_eq_some_iff.1 h
    obtain ⟨hlt, rfl⟩ := Array.getElem?_eq_some_iff.1 hm
    cases Nat.lt_one_iff.1 hlt
    cases hparent
  lineage := .module rfl .outside
  last := rfl

theorem Rooted.path_eq (h : t.Rooted) : ∃ outer, t.path = t.current :: outer := by
  have hlast := h.last
  unfold current
  cases hpath : t.path with
  | nil => rw [hpath] at hlast; cases hlast
  | cons id ids => exact ⟨ids, rfl⟩

theorem lt_size_of_parent? {p : Option Nat} (h : t.parent? id = some p) : id < t.modules.size := by
  obtain ⟨m, hm, -⟩ := Option.map_eq_some_iff.1 h
  exact (Array.getElem?_eq_some_iff.1 hm).1

theorem Rooted.run (h : t.Rooted) (c : Call) : (c.run t).Rooted := by
  obtain ⟨outer, houter⟩ := h.path_eq
  have hlineage := h.lineage.run c
  have hordered {id parent : Nat} (hparent : (c.run t).parent? id = some (some parent)) :
      parent < id := by
    obtain hparent | ⟨-, rfl, hcurrent⟩ := parent?_run.1 hparent
    · exact h.ordered hparent
    · cases hcurrent
      have hlineage := houter ▸ h.lineage
      cases hlineage with
      | module hparent => exact lt_size_of_parent? hparent
  have hlast := h.last
  cases c with
  | enter name =>
    refine ⟨hordered, .module (parent?_run.2 (.inr ⟨⟨name, rfl⟩, rfl, ?_⟩)) hlineage, ?_⟩
    · rw [houter]; rfl
    · simpa [Call.run, enter, houter] using hlast
  | leave =>
    rw [houter] at hlineage hlast
    cases outer with
    | nil =>
      have hleave : t.leave.path = [t.current] := by rw [leave, houter]; exact houter
      exact ⟨hordered, by rwa [Call.run, hleave], by rwa [Call.run, hleave]⟩
    | cons parent outer =>
      have hleave := leave_path houter
      cases hlineage with
      | module _ hids => exact ⟨hordered, by rwa [Call.run, hleave], by rwa [Call.run, hleave]⟩
  | define i kind x => refine ⟨hordered, ?_, ?_⟩ <;> simpa only [Call.run, defineIn_path]

theorem Rooted.after (h : t.Rooted) : (t.after calls).Rooted := by
  induction calls generalizing t with
  | nil => exact h
  | cons c calls ih => exact ih (h.run c)

/-- A module is left when all those that were entered in it have been left, and then the same modules
are open as before it was entered. -/
theorem Balanced.path_after (h : Balanced calls) (ht : t.Rooted) : (t.after calls).path = t.path := by
  induction h generalizing t with
  | nil => rfl
  | define i kind x _ ih => exact (ih (ht.run _)).trans (t.defineIn_path i kind x)
  | @enter name inner rest _ _ hinner hrest =>
    obtain ⟨outer, houter⟩ := ht.path_eq
    have hentered := ht.run (.enter name)
    have hopen := (hinner hentered).trans (congrArg (t.modules.size :: ·) houter)
    have hleft := leave_path hopen
    change (((Call.enter name).run t).after (inner ++ .leave :: rest)).path = _
    rw [after_append, houter, ← hleft]
    exact hrest (hentered.after.run .leave)

theorem declares_iff {m : Module} :
    m.declares symbol = true ↔ ∃ kind ≠ .method, m.has kind symbol = true := by
  rw [Module.declares, Bool.or_eq_true]
  constructor
  · rintro (h | h)
    · exact ⟨.static, by decide, h⟩
    · exact ⟨.attribute, by decide, h⟩
  · rintro ⟨_ | _ | _, hkind, h⟩
    · exact .inl h
    · exact .inr h
    · exact absurd rfl hkind

/-- A search goes through the modules of a lineage. -/
theorem Rooted.search (h : t.Rooted) (hids : t.Lineage ids) : ∀ id ∈ ids.head?,
    t.Search symbol (some id) (t.sees symbol id) ∧
      (t.sees symbol id = true ↔ ∃ i ∈ ids, ∃ kind ≠ .method, t.Holds i kind symbol) := by
  induction hids with
  | outside => exact fun _ hid => nomatch hid
  | @module id ids hparent _ ih =>
    rintro _ ⟨⟩
    obtain ⟨m, hm, hp⟩ := Option.map_eq_some_iff.1 hparent
    have hhere : (∃ kind ≠ .method, t.Holds id kind symbol) ↔ m.declares symbol = true := by
      simp [declares_iff, Holds, hm]
    rw [sees, hm]
    simp only [mem_cons, exists_eq_or_imp, hhere]
    cases hdeclares : m.declares symbol with
    | true => exact ⟨.found hm hdeclares, by simp⟩
    | false =>
      cases ids with
      | nil =>
        have hsearch : t.Search symbol m.parent false := hp ▸ .outside
        simpa [hp] using Search.outward hm hdeclares hsearch
      | cons parent outer =>
        obtain ⟨hsearch, hiff⟩ := ih parent rfl
        have hlt := h.ordered hparent
        simp only [hp, head?_cons, hlt, Bool.false_or, if_true]
        exact ⟨.outward hm hdeclares (hp ▸ hsearch), by simpa using hiff⟩

/-- The calls define the symbol as a member of the module. -/
def Defined (calls : List Call) (id : Nat) (kind : MemberKind) (symbol : Symbol) : Prop :=
  ∃ before, before ++ [.define id kind symbol] <+: calls ∧ id < (after {} before).modules.size

theorem holds_after {kind : MemberKind} :
    (after {} calls).Holds id kind symbol ↔ Defined calls id kind symbol := by
  induction calls using reverseRecOn with
  | nil =>
    refine ⟨fun ⟨m, hm, hhas⟩ => ?_, fun ⟨before, h, _⟩ => by simp at h⟩
    obtain ⟨hlt, rfl⟩ := Array.getElem?_eq_some_iff.1 hm
    cases Nat.lt_one_iff.1 hlt
    cases kind <;> cases hhas
  | append_singleton calls c ih =>
    rw [after_append]
    refine holds_run.trans ?_
    simp only [ih, Defined, prefix_concat_iff, append_singleton_inj, or_and_right, exists_or, and_assoc,
      exists_eq_left, eq_comm (a := c)]
    exact or_comm

/-- The calls enter the module, and the other one is open then. -/
def Encloses (calls : List Call) (outer id : Nat) : Prop :=
  ∃ before name, before ++ [.enter name] <+: calls ∧ ((after {} before).enter name).1 = id ∧
    outer ∈ (after {} before).path

theorem lineage_entered {before : List Call} {name : String} (h : before ++ [.enter name] <+: calls) :
    (after {} calls).Lineage (((after {} before).enter name).1 :: (after {} before).path) := by
  obtain ⟨rest, rfl⟩ := h
  rw [after_append, after_append]
  exact (rooted_empty.after.run (.enter name)).lineage.after

theorem entered_of_lt (h : id < (after {} calls).modules.size) : id = 0 ∨
    ∃ before name, before ++ [.enter name] <+: calls ∧ ((after {} before).enter name).1 = id := by
  induction calls using reverseRecOn with
  | nil => exact .inl (Nat.lt_one_iff.1 h)
  | append_singleton calls c ih =>
    rw [after_append] at h
    have hparent := congrArg (Option.map (·.parent)) (Array.getElem?_eq_getElem h)
    obtain hold | ⟨⟨name, rfl⟩, rfl, -⟩ := parent?_run.1 hparent
    · refine (ih (lt_size_of_parent? hold)).imp_right ?_
      rintro ⟨before, name, hbefore, hid⟩
      exact ⟨before, name, hbefore.trans (prefix_append ..), hid⟩
    · exact .inr ⟨calls, name, prefix_rfl, rfl⟩

theorem exists_lineage (h : id < (after {} calls).modules.size) : ∃ outer,
    (after {} calls).Lineage (id :: outer) ∧ ∀ i, i ∈ outer ↔ Encloses calls i id := by
  have hentered {outer : List Nat} (hids : (after {} calls).Lineage (id :: outer)) {i : Nat}
      (hi : Encloses calls i id) : i ∈ outer := by
    obtain ⟨before, name, hbefore, rfl, hi⟩ := hi
    cases (lineage_entered hbefore).unique hids rfl
    exact hi
  obtain rfl | ⟨before, name, hbefore, rfl⟩ := entered_of_lt h
  · have htop : (after {} calls).Lineage [0] := rooted_empty.lineage.after
    exact ⟨[], htop, fun i => ⟨(nomatch ·), hentered htop⟩⟩
  · have hids := lineage_entered hbefore
    exact ⟨_, hids, fun i => ⟨fun hi => ⟨before, name, hbefore, rfl, hi⟩, hentered hids⟩⟩

/-- After any calls the open modules lead to the top level, every module has a greater number than its
parent, and leaving a module undoes the entering that it matches. A search from a module outwards ends,
and it finds the symbols that were defined as a static or an attribute of the module or of one that
was open when the module was entered. -/
theorem search_ends_exactly (calls : List Call) :
    let t := after {} calls
    t.path.getLast? = some 0 ∧
    (∀ id parent, t.parent? id = some (some parent) → parent < id) ∧
    (∀ name inner, Balanced inner → (t.after (.enter name :: inner ++ [.leave])).path = t.path) ∧
    ∀ id symbol, id < t.modules.size →
      (∀ result, t.Search symbol (some id) result ↔ result = t.sees symbol id) ∧
      (t.sees symbol id = true ↔ ∃ outer, (outer = id ∨ Encloses calls outer id) ∧
        ∃ kind ≠ .method, Defined calls outer kind symbol) := by
  have ht : (after {} calls).Rooted := rooted_empty.after
  refine ⟨ht.last, fun id parent => ht.ordered, fun name inner hinner => ?_, fun id symbol hid => ?_⟩
  · exact (Balanced.enter name hinner .nil).path_after ht
  · obtain ⟨outer, hids, houter⟩ := exists_lineage hid
    obtain ⟨hsearch, hiff⟩ := ht.search hids id rfl
    refine ⟨fun result => ⟨fun h => h.unique hsearch, fun h => h ▸ hsearch⟩, ?_⟩
    simpa only [mem_cons, houter, holds_after] using hiff

end Adhoc.ModuleTree
