import Adhoc.Proofs.Calls
import Adhoc.Proofs.Judging
import Adhoc.Proofs.Occurrences
import Mathlib.Data.Set.Basic

namespace Adhoc

open List

/-- Whether a statement with a scope of its own ends with a `LEAVE`. -/
def Stmt.leaves : Stmt → Bool
  | .block _ body => !body.isEmpty
  | .ifElse .. => false
  | _ => true

/-- Whether a statement has a scope of its own, perhaps under a label. -/
def Stmt.isScoped : Stmt → Bool
  | .block .. | .ifElse .. | .forLoop .. | .foreach .. | .whileLoop .. | .doWhile .. | .switch ..
  | .labeled .. => true
  | _ => false

namespace Part

def isClass : Part → Bool
  | .expr (.classDef ..) | .stmt (.classDef ..) => true
  | _ => false

/-- Whether the part is a statement with a scope of its own. -/
def isScope : Part → Bool
  | .stmt (.block ..) | .stmt (.ifElse ..) | .stmt (.forLoop ..) | .stmt (.foreach ..)
  | .stmt (.whileLoop ..) | .stmt (.doWhile ..) | .stmt (.switch ..) => true
  | _ => false

def isInclusion : Part → Bool
  | .stmt (.includeFile ..) => true
  | _ => false

/-- The names that the part declares itself. -/
def declared : Part → List String
  | .stmt (.declare _ ds) => ds.flatMap fun d => d.id.toList.flatMap Expr.bound
  | .stmt (.tryCatch _ _ (some c) _) => (c.param.bind Expr.ident?).toList
  | _ => []

/-- The stem of the temporaries that the part uses itself. -/
def stem? : Part → Option String
  | .stmt (.foreach ..) => some "in"
  | .stmt (.switch ..) => some "case"
  | .stmt (.tryCatch ..) | .stmt (.block ..) => some "catch"
  | .stmt (.finalizer ..) => some "fin"
  | .expr (.await ..) => some "task"
  | _ => none

/-- Whether the part takes no names and opens no scope, apart from what its parts do. -/
def isQuiet : Part → Bool
  | .expr (.selfRef ..) => false
  | p => !p.isClass && !p.isScope && !p.isInclusion && p.declared.isEmpty && p.stem?.isNone

/-- The part itself takes the name for a variable of its frame. -/
inductive Takes (logs : Bool) : Part → String → Prop
  | declared {p : Part} {name : String} : name ∈ p.declared → Takes logs p (Symbol.canonical name)
  | temporary {p : Part} {stem name : String} : p.stem? = some stem →
    Symbol.IsTemporary stem name → Takes logs p name
  | logged {loc : Loc} {body : List Stmt} : logs = true →
    Takes logs (.stmt (.block loc body)) Emit.exceptionName
  | self (loc : Loc) : Takes logs (.expr (.selfRef loc)) "self"

end Part

section

variable (lib : Library) (v : Version) (logs : Bool)

/-- The deed is one of those of the part. Included files count if `via` is true. -/
inductive Contributes (via : Prop) : Part → Deed → Prop
  | takes {p : Part} {name : String} : p.Takes logs name → Contributes via p (.owns name)
  | member {p : Part} {name : String} : name ∈ p.members →
    Contributes via p (.defines (Symbol.canonical name))
  | part {p q : Part} {d : Deed} : p.isClass = false → (p.isScope = true → d.isDefinition = false) →
    q ∈ p.parts v → Contributes via q d → Contributes via p d
  | encloses {p : Part} : p.isClass = true → Contributes via p .encloses
  | closed {p q : Part} {d : Deed} : p.isClass = true → q ∈ p.parts v → Contributes via q d →
    Contributes via p d.closed
  | included {loc : Loc} {path : String} {program : Program} {s : Stmt} {d : Deed} : via →
    lib.Includes path program → s ∈ program.body → Contributes via (.stmt s) d →
    Contributes via (.stmt (.includeFile loc path)) d

end

/-- Bounds for the deeds of a course: all are among `may`, and all of `must` are there. Its code has
just as many calls, unless that is left open. -/
@[ext]
structure Deeds where
  may : Set Deed
  must : Set Deed
  calls : WithTop ℕ

namespace Deeds

/-- First the one, then the other. -/
instance : Add Deeds := ⟨fun a b => ⟨a.may ∪ b.may, a.must ∪ b.must, a.calls + b.calls⟩⟩

instance : Zero Deeds := ⟨⟨∅, ∅, 0⟩⟩

instance : AddCommMonoid Deeds where
  add_assoc a b c := Deeds.ext (Set.union_assoc ..) (Set.union_assoc ..) (add_assoc ..)
  add_comm a b := Deeds.ext (Set.union_comm ..) (Set.union_comm ..) (add_comm ..)
  zero_add a := Deeds.ext (Set.empty_union _) (Set.empty_union _) (zero_add _)
  add_zero a := Deeds.ext (Set.union_empty _) (Set.union_empty _) (add_zero _)
  nsmul := nsmulRec

@[simp] theorem add_may (a b : Deeds) : (a + b).may = a.may ∪ b.may := rfl

@[simp] theorem add_must (a b : Deeds) : (a + b).must = a.must ∪ b.must := rfl

@[simp] theorem add_calls (a b : Deeds) : (a + b).calls = a.calls + b.calls := rfl

@[simp] theorem zero_may : (0 : Deeds).may = ∅ := rfl

@[simp] theorem zero_must : (0 : Deeds).must = ∅ := rfl

@[simp] theorem zero_calls : (0 : Deeds).calls = 0 := rfl

/-- The deeds keep to the bounds, and so does the code from one draft to the other. -/
structure Bound (v : Version) (a : Deeds) (ds : List Deed) (d e : Draft) : Prop where
  may : ∀ d ∈ ds, d ∈ a.may
  must : ∀ d ∈ a.must, d ∈ ds
  code : d.Brings v a.calls e

variable {v : Version} {a b : Deeds} {ds es : List Deed} {d e f : Draft}

theorem Bound.nil (h : d.Brings v 0 e) : Bound v 0 [] d e :=
  ⟨fun _ h => (nomatch h), fun _ h => (nomatch h), h⟩

theorem Bound.eq_nil (h : Bound v 0 ds d e) : ds = [] :=
  eq_nil_iff_forall_not_mem.2 fun d hd => h.may d hd

theorem Bound.append (h : a.Bound v ds d e) (h' : b.Bound v es e f) :
    (a + b).Bound v (ds ++ es) d f where
  may d hd := (mem_append.1 hd).imp (h.may d) (h'.may d)
  must d hd := mem_append.2 (hd.imp (h.must d) (h'.must d))
  code := h.code.trans h'.code

/-- Bounds that are at least as close. -/
structure Within (a b : Deeds) : Prop where
  may : a.may ⊆ b.may
  must : b.must ⊆ a.must
  calls : ∀ n, b.calls = .some n → a.calls = .some n

theorem Within.refl (a : Deeds) : a.Within a := ⟨Set.Subset.rfl, Set.Subset.rfl, fun _ h => h⟩

theorem Within.add {a' b' : Deeds} (h : a.Within a') (h' : b.Within b') : (a + b).Within (a' + b') where
  may := Set.union_subset_union h.may h'.may
  must := Set.union_subset_union h.must h'.must
  calls n hn := by
    obtain ⟨m, k, hm, hk, rfl⟩ := WithTop.add_eq_coe.1 hn
    rw [add_calls, h.calls m hm.symm, h'.calls k hk.symm, WithTop.coe_add]

theorem Bound.within (h : a.Bound v ds d e) (hab : a.Within b) : b.Bound v ds d e :=
  ⟨fun d hd => hab.may (h.may d hd), fun d hd => h.must d (hab.must hd),
    fun n hn => h.code.calls n (hab.calls n hn), h.code.frames⟩

/-- Calls in the code. -/
def called (n : WithTop ℕ) : Deeds := ⟨∅, ∅, n⟩

@[simp] theorem called_zero : called 0 = 0 := rfl

theorem called_add (m n : WithTop ℕ) : called (m + n) = called m + called n := by
  ext d <;> simp [called]

theorem Bound.calling {n : WithTop ℕ} (h : a.Bound v ds d e) (hf : e.Brings v n f) :
    (a + called n).Bound v ds d f := by
  rw [← append_nil ds]
  exact h.append ⟨fun _ h => (nomatch h), fun _ h => (nomatch h), hf⟩

/-- Variables of the frame. -/
def owned (names : Set String) : Deeds := ⟨{d | ∃ name ∈ names, d = .owns name}, ∅, 0⟩

/-- The names are declared, if anything is. -/
def bound (declares : Bool) (names : List String) : Deeds :=
  owned {n | declares = true ∧ ∃ name ∈ names, n = Symbol.canonical name}

/-- Temporaries with the stem. -/
def temporaries (stem : String) : Deeds := owned {name | Symbol.IsTemporary stem name}

theorem temporaries_add (stem : String) : temporaries stem + temporaries stem = temporaries stem :=
  Deeds.ext (Set.union_self _) (Set.union_self _) rfl

/-- Members, by their names in the tree. -/
def members (names : List String) : Deeds :=
  ⟨{d | ∃ name ∈ names, d = .defines (Symbol.canonical name)},
    {d | ∃ name ∈ names, d = .defines (Symbol.canonical name)}, 0⟩

/-- What is defined in a scope stays there. -/
def inScope (a : Deeds) : Deeds :=
  ⟨{d | d ∈ a.may ∧ d.isDefinition = false}, {d | d ∈ a.must ∧ d.isDefinition = false}, a.calls⟩

/-- What is defined in a class or module is cleared. -/
def inModule (a : Deeds) : Deeds :=
  ⟨{d | d = .encloses ∨ ∃ d' ∈ a.may, d'.closed = d},
    {d | d = .encloses ∨ ∃ d' ∈ a.must, d'.closed = d}, a.calls⟩

@[simp] theorem inScope_add (a b : Deeds) : (a + b).inScope = a.inScope + b.inScope := by
  ext d <;> simp [Deeds.inScope, or_and_right]

@[simp] theorem inScope_inScope (a : Deeds) : a.inScope.inScope = a.inScope := by
  ext d <;> simp [Deeds.inScope]

@[simp] theorem inScope_zero : (0 : Deeds).inScope = 0 := by
  ext d <;> simp [Deeds.inScope]

theorem Bound.inScope (h : a.Bound v ds d e) (hf : e.Brings v 0 f) :
    a.inScope.Bound v (ds.filter (!·.isDefinition)) d f where
  may d hd := by
    obtain ⟨hd, hn⟩ := mem_filter.1 hd
    exact ⟨h.may d hd, by simpa using hn⟩
  must d hd := mem_filter.2 ⟨h.must d hd.1, by simpa using hd.2⟩
  code := add_zero a.calls ▸ h.code.trans hf

theorem Bound.inModule (h : a.Bound v ds d e) (hf : e.Brings v 0 f) :
    a.inModule.Bound v (.encloses :: ds.map Deed.closed) d f where
  code := add_zero a.calls ▸ h.code.trans hf
  may d hd := by
    rcases mem_cons.1 hd with rfl | hd
    · exact .inl rfl
    · obtain ⟨d', hd', rfl⟩ := mem_map.1 hd
      exact .inr ⟨d', h.may d' hd', rfl⟩
  must d hd := by
    rcases hd with rfl | ⟨d', hd', rfl⟩
    · exact mem_cons_self
    · exact mem_cons_of_mem _ (mem_map_of_mem (h.must d' hd'))

@[simp] theorem members_nil : members [] = 0 := by
  ext d <;> simp [members]

theorem Bound.owned {names : Set String} (hf : d.Brings v 0 e)
    (h : ∀ d ∈ ds, ∃ name ∈ names, d = .owns name) : (Deeds.owned names).Bound v ds d e :=
  ⟨h, fun _ hd => (nomatch hd), hf⟩

theorem Within.owned {names names' : Set String} (h : names ⊆ names') :
    (Deeds.owned names).Within (Deeds.owned names') :=
  ⟨fun _ ⟨name, hn, hd⟩ => ⟨name, h hn, hd⟩, fun _ hd => (nomatch hd), fun _ h => h⟩

theorem Within.owned_add (names : Set String) (a : Deeds) : a.Within (Deeds.owned names + a) :=
  ⟨Set.subset_union_right, fun _ hd => hd.resolve_left fun h => (nomatch h),
    fun _ h => (zero_add _).symm.trans h⟩

theorem owned_union (names names' : Set String) :
    owned (names ∪ names') = owned names + owned names' := by
  ext d <;> simp [owned, or_and_right, exists_or]

theorem bound_false (names : List String) : bound false names = 0 := by
  ext d <;> simp [bound, owned]

theorem bound_nil (declares : Bool) : bound declares [] = 0 := by
  ext d <;> simp [bound, owned]

theorem bound_append (declares : Bool) (names names' : List String) :
    bound declares (names ++ names') = bound declares names + bound declares names' := by
  rw [bound, bound, bound, ← owned_union]
  congr 1
  ext n
  simp [or_and_right, exists_or, and_or_left]

section

variable (lib : Library) (v : Version) (logs : Bool)

def of (p : Part) : Deeds :=
  ⟨{d | Contributes lib v logs True p d},
    {d | Contributes lib v logs (lib.includeFolder.isSome = true) p d ∧ d.isOwn = false}, p.calls logs⟩

def all (ps : List Part) : Deeds :=
  ⟨{d | ∃ p ∈ ps, d ∈ (of lib v logs p).may}, {d | ∃ p ∈ ps, d ∈ (of lib v logs p).must},
    (ps.map (Part.calls logs)).sum⟩

/-- What the part does itself. -/
def own (p : Part) : Deeds :=
  owned {name | p.Takes logs name} + members p.members + called (p.aside logs)

end

section

variable {lib : Library} {v : Version} {logs : Bool} {p : Part}

theorem own_calls (p : Part) : (own logs p).calls = p.aside logs := by
  simp [own, owned, members, called]

@[simp] theorem all_nil : all lib v logs [] = 0 := by
  ext d <;> simp [all]

theorem all_cons (p : Part) (ps : List Part) :
    all lib v logs (p :: ps) = of lib v logs p + all lib v logs ps := by
  ext d <;> simp [all, of]

theorem all_append (ps qs : List Part) :
    all lib v logs (ps ++ qs) = all lib v logs ps + all lib v logs qs := by
  ext d <;> simp [all, or_and_right, exists_or]

theorem all_singleton (p : Part) : all lib v logs [p] = of lib v logs p := by
  rw [all_cons, all_nil, add_zero]

theorem all_use (u : Use) : all lib v logs ([u].map Use.part) = of lib v logs u.part :=
  all_singleton _

theorem of_eq (hc : p.isClass = false) (hs : p.isScope = false) (hi : p.isInclusion = false) :
    of lib v logs p = own logs p + all lib v logs (p.parts v) := by
  have hdoes : ∀ via d, Contributes lib v logs via p d ↔ (∃ name, p.Takes logs name ∧ d = .owns name) ∨
      (∃ name ∈ p.members, d = .defines (Symbol.canonical name)) ∨
      ∃ q ∈ p.parts v, Contributes lib v logs via q d := by
    intro via d
    constructor
    · intro h
      cases h with
      | takes h => exact .inl ⟨_, h, rfl⟩
      | member h => exact .inr (.inl ⟨_, h, rfl⟩)
      | part _ _ hq h => exact .inr (.inr ⟨_, hq, h⟩)
      | encloses h | closed h => simp [hc] at h
      | included => cases hi
    · rintro (⟨name, h, rfl⟩ | ⟨name, h, rfl⟩ | ⟨q, hq, h⟩)
      · exact .takes h
      · exact .member h
      · exact .part hc (by simp [hs]) hq h
  ext d
  · simp only [of, own, owned, members, called, all, Set.mem_ofPred_eq, add_may, Set.mem_union, hdoes,
      Set.mem_empty_iff_false, or_false, or_assoc]
  · simp only [of, own, owned, members, called, all, Set.mem_ofPred_eq, add_must, Set.mem_union,
      Set.mem_empty_iff_false, false_or, or_false, hdoes]
    constructor
    · rintro ⟨⟨name, _, rfl⟩ | h | ⟨q, hq, h⟩, hn⟩
      · cases hn
      · exact .inl h
      · exact .inr ⟨q, hq, h, hn⟩
    · rintro (⟨name, h, rfl⟩ | ⟨q, hq, h, hn⟩)
      · exact ⟨.inr (.inl ⟨name, h, rfl⟩), rfl⟩
      · exact ⟨.inr (.inr ⟨q, hq, h⟩), hn⟩
  · simpa [of, own, owned, members, called, all] using p.calls_eq logs v

theorem own_eq (ha : p.aside logs = 0) (hm : p.members = []) (hd : p.declared = [])
    (hself : ∀ loc, p ≠ .expr (.selfRef loc)) (hblock : ∀ loc body, p ≠ .stmt (.block loc body)) :
    own logs p = match p.stem? with
      | some stem => temporaries stem
      | none => 0 := by
  have htakes : ∀ name, p.Takes logs name ↔
      ∃ stem, p.stem? = some stem ∧ Symbol.IsTemporary stem name := by
    intro name
    constructor
    · intro h
      cases h with
      | declared h => simp [hd] at h
      | temporary h h' => exact ⟨_, h, h'⟩
      | logged => exact absurd rfl (hblock _ _)
      | self => exact absurd rfl (hself _)
    · exact fun ⟨stem, h, h'⟩ => .temporary h h'
  rw [own, hm, members_nil, add_zero, ha, called_zero, add_zero]
  cases hstem : p.stem? with
  | some stem => simp only [htakes, hstem, Option.some.injEq, exists_eq_left', temporaries]
  | none => ext d <;> simp [owned, htakes, hstem]

theorem of_quiet (h : p.isQuiet = true) :
    of lib v logs p = members p.members + called (p.aside logs) + all lib v logs (p.parts v) := by
  have hp : p.isClass = false ∧ p.isScope = false ∧ p.isInclusion = false ∧
      p.declared = [] ∧ p.stem? = none ∧ ∀ loc, p ≠ .expr (.selfRef loc) := by
    unfold Part.isQuiet at h
    split at h
    · cases h
    · rename_i hself
      simp only [Bool.and_eq_true, Bool.not_eq_true', List.isEmpty_iff, Option.isNone_iff_eq_none] at h
      obtain ⟨⟨⟨⟨h1, h2⟩, h3⟩, h4⟩, h5⟩ := h
      exact ⟨h1, h2, h3, h4, h5, hself⟩
  obtain ⟨hclass, hscope, hinclude, hdeclared, hstem, hself⟩ := hp
  have htakes : ∀ name, ¬ p.Takes logs name := by
    intro name ht
    cases ht with
    | declared h => simp [hdeclared] at h
    | temporary h => simp [hstem] at h
    | logged => cases hscope
    | self loc => exact hself loc rfl
  have hown : owned {name | p.Takes logs name} = 0 := by
    ext d <;> simp [owned, htakes]
  rw [of_eq hclass hscope hinclude, own, hown, zero_add]

theorem of_leaf (hp : p.isQuiet = true) (hm : p.members = []) (hn : p.aside logs = 0)
    (hparts : p.parts v = []) : of lib v logs p = 0 := by
  rw [of_quiet hp, hm, hn, hparts, members_nil, called_zero, all_nil, add_zero, add_zero]

theorem of_scope (hs : p.isScope = true) :
    of lib v logs p = (own logs p + all lib v logs (p.parts v)).inScope := by
  have hp : p.isClass = false ∧ p.members = [] ∧ p.isInclusion = false := by
    unfold Part.isScope at hs
    split at hs <;> first | exact ⟨rfl, rfl, rfl⟩ | cases hs
  have hdoes : ∀ via d, Contributes lib v logs via p d ↔ ((∃ name, p.Takes logs name ∧ d = .owns name) ∨
      ∃ q ∈ p.parts v, Contributes lib v logs via q d) ∧ d.isDefinition = false := by
    intro via d
    constructor
    · intro h
      cases h with
      | takes h => exact ⟨.inl ⟨_, h, rfl⟩, rfl⟩
      | member h => simp [hp.2.1] at h
      | part _ hd hq h => exact ⟨.inr ⟨_, hq, h⟩, hd hs⟩
      | encloses h | closed h => simp [hp.1] at h
      | included => cases hs
    · rintro ⟨⟨name, h, rfl⟩ | ⟨q, hq, h⟩, hd⟩
      · exact .takes h
      · exact .part hp.1 (fun _ => hd) hq h
  ext d
  · simp only [of, own, owned, members, called, all, inScope, hp.2.1, not_mem_nil, false_and,
      exists_false, Set.mem_ofPred_eq, add_may, Set.mem_union, Set.mem_empty_iff_false, or_false,
      hdoes]
  · simp only [of, own, owned, members, called, all, inScope, hp.2.1, not_mem_nil, false_and,
      exists_false, Set.mem_ofPred_eq, add_must, Set.mem_union, Set.mem_empty_iff_false, false_or,
      or_false, hdoes]
    constructor
    · rintro ⟨⟨⟨name, _, rfl⟩ | ⟨q, hq, h⟩, hd⟩, hn⟩
      · cases hn
      · exact ⟨⟨q, hq, h, hn⟩, hd⟩
    · rintro ⟨⟨q, hq, h, hn⟩, hd⟩
      exact ⟨⟨.inr ⟨q, hq, h⟩, hd⟩, hn⟩
  · simpa [of, own, owned, members, called, all, inScope] using p.calls_eq logs v

theorem of_class (hc : p.isClass = true) :
    of lib v logs p = (all lib v logs (p.parts v)).inModule := by
  have hp : p.members = [] ∧ (∀ name, ¬ p.Takes logs name) ∧ p.aside logs = 0 := by
    unfold Part.isClass at hc
    split at hc <;> cases hc
    all_goals
      refine ⟨rfl, fun name h => ?_, rfl⟩
      cases h with
      | declared h => cases h
      | temporary h => cases h
  have hdoes : ∀ via d, Contributes lib v logs via p d ↔ d = .encloses ∨
      ∃ d', (∃ q ∈ p.parts v, Contributes lib v logs via q d') ∧ d'.closed = d := by
    intro via d
    constructor
    · intro h
      cases h with
      | takes h => exact absurd h (hp.2.1 _)
      | member h => simp [hp.1] at h
      | part h => simp [hc] at h
      | encloses => exact .inl rfl
      | closed _ hq h => exact .inr ⟨_, ⟨_, hq, h⟩, rfl⟩
      | included => cases hc
    · rintro (rfl | ⟨d', ⟨q, hq, h⟩, rfl⟩)
      · exact .encloses hc
      · exact .closed hc hq h
  have hown : ∀ d : Deed, d.closed.isOwn = d.isOwn := fun d => by cases d <;> rfl
  ext d
  · simp only [of, all, inModule, Set.mem_ofPred_eq, hdoes]
  · simp only [of, all, inModule, Set.mem_ofPred_eq, hdoes]
    constructor
    · rintro ⟨rfl | ⟨d', ⟨q, hq, h⟩, rfl⟩, hn⟩
      · exact .inl rfl
      · exact .inr ⟨d', ⟨q, hq, h, hown d' ▸ hn⟩, rfl⟩
    · rintro (rfl | ⟨d', ⟨q, hq, h, hn⟩, rfl⟩)
      · exact ⟨.inl rfl, rfl⟩
      · exact ⟨.inr ⟨d', ⟨q, hq, h⟩, rfl⟩, (hown d').trans hn⟩
  · simpa [of, all, inModule, hp.2.2] using p.calls_eq logs v

end

end Deeds

end Adhoc
