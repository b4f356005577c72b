import Adhoc.Proofs.History
import Adhoc.Proofs.JudgedExpr

namespace Adhoc

open Emit List Expr Slots Deeds

variable {name : String} {v : Version} {enclosing : Option (List Symbol)} {folder : Option String}
  {lib : Library} {logs : Bool}

/-- A draft is prepared, and where methods reserve no local it has no local slot without a name. -/
structure Draft.Ready (v : Version) (symbols : SymbolTable) (outer : Option (List Symbol))
    (d : Draft) : Prop extends Prepared v symbols outer d where
  byName : v.has .reservedLocalInFrame = false → (Slots.empty v).ByName d.slots

namespace Draft.Ready

variable {child d : Draft} {s t : Session} {symbols symbols' : SymbolTable}

theorem mono (h : child.Ready v symbols enclosing) (hg : symbols.Grows symbols') :
    child.Ready v symbols' enclosing :=
  { h with known := fun x hx => (h.known x hx).mono hg }

theorem newChild {captures : Bool} (h : Emit.newChild v captures s = .ok (d, t)) :
    t = s ∧ d.Ready v s.symbols (if captures then some s.frame.slots.locals else none) := by
  simp only [Emit.newChild, bind_ok] at h
  obtain ⟨f, r1, h1, ⟨⟨⟩, d'⟩, r2, h2, h3⟩ := h
  obtain ⟨rfl, rfl⟩ := frame_ok.1 h1
  obtain ⟨rfl, rfl⟩ := pure_ok.1 h3
  obtain ⟨hpush, rfl⟩ := onDraft_ok.1 h2
  cases hpush
  refine ⟨rfl, ⟨⟨_, ⟨t.frame.source, rfl⟩, .single (.openScope .block)⟩, rfl, rfl, rfl, rfl, rfl,
    ?_, ?_, fun _ => empty_lists v⟩, fun _ => .refl _⟩
  · intro i x hx
    simp only [Draft.child, Draft.start, empty_local?, reduceCtorEq] at hx
  · exact fun x hx => (not_mem_nil hx).elim

theorem declare (hc : child.Ready v s.symbols enclosing)
    (h : declareParameter name child s = .ok (d, t)) :
    s.Widens t ∧ t.frame = s.frame ∧ d.Ready v t.symbols enclosing := by
  simp only [declareParameter, bind_ok] at h
  obtain ⟨x, r1, h1, ⟨⟨⟩, d'⟩, r2, h2, h3⟩ := h
  obtain ⟨rfl, rfl⟩ := pure_ok.1 h3
  obtain ⟨hadd, rfl⟩ := onDraft_ok.1 h2
  obtain ⟨hx, -, hwide, hframe⟩ := symbol_ok h1
  obtain ⟨i, huse⟩ := addParameter_uses hadd
  obtain ⟨hr, hslots, hcaptured⟩ := useLocal_slots huse
  obtain ⟨d0, hfresh, hleads⟩ := hc.begun
  have hremains := hr.remains
  refine ⟨hwide, hframe, ⟨⟨d0, hfresh, hleads.tail (.parameter hadd)⟩, hr.code.trans hc.code,
    hr.moments.trans hc.moments, hcaptured.trans hc.captured, hremains.enclosing.trans hc.enclosing,
    hremains.isRoot.trans hc.isRoot, ?_, ?_, fun hdistinct => ?_⟩, fun hv => ?_⟩
  · intro j y hy
    rw [hremains.parameters]
    rw [hslots] at hy
    rcases findOrAddLocal_local? hy with rfl | hy
    · simp
    · exact mem_append_left _ (hc.locals j y hy)
  · intro y hy
    rw [hremains.parameters] at hy
    rcases mem_append.1 hy with hy | hy
    · exact (hc.known y hy).mono hwide.symbols
    · exact mem_singleton.1 hy ▸ hx
  · -- A parameter that is none of those before it is no local yet.
    rw [hremains.parameters] at hdistinct ⊢
    obtain ⟨hbefore, -, hnew⟩ := nodup_append.1 hdistinct
    have hnone : child.slots.localIndex? x = none :=
      localIndex?_eq_none.2 fun j hj => hnew x (hc.locals j x hj) x (by simp) rfl
    rw [hslots, findOrAddLocal, hnone]
    exact (hc.placed hbefore).addLocal x
  · exact (hc.byName hv).trans ⟨[.enter .local x], hslots, by simp⟩

theorem rest (hc : child.Ready v symbols enclosing) :
    Draft.Ready v symbols enclosing { child with hasRest := true } := by
  obtain ⟨d0, hfresh, hleads⟩ := hc.begun
  exact ⟨⟨⟨d0, hfresh, hleads.tail .rest⟩, hc.code, hc.moments, hc.captured, hc.enclosing, hc.isRoot,
    hc.locals, hc.known, hc.placed⟩, hc.byName⟩

theorem reserveSlot (hc : child.Ready v symbols enclosing) (isMethod : Bool) :
    (Emit.reserveSlot v isMethod child).Ready v symbols enclosing := by
  unfold Emit.reserveSlot
  split
  · rename_i hreserves
    obtain ⟨d0, hfresh, hleads⟩ := hc.begun
    refine ⟨⟨⟨d0, hfresh, hleads.tail .reserve⟩, hc.code, hc.moments, hc.captured, hc.enclosing, hc.isRoot, ?_,
      hc.known, fun hdistinct => (hc.placed hdistinct).reserve⟩, fun hv => ?_⟩
    · rw [addLocal_none_local?]
      exact hc.locals
    · simp [hv] at hreserves
  · exact hc

theorem takesByName (hc : child.Ready v symbols enclosing) (h : child.slots.ByName d.slots) :
    d.finish.TakesByName v := fun hv => (hc.byName hv).trans h

end Draft.Ready

section

variable {e left right : Expr} {l r : ExprCode} {child d : Draft} {s t : Session}

theorem identifier_follows (loc : Loc) (name : String) :
    Follows v lib.includeFolder 0 (identifier v loc name) := by
  unfold identifier
  split
  · exact .emit rfl
  · refine .own .frame fun f => ?_
    split
    · exact .own (.pure _) fun _ => .emit rfl
    · exact .own (.stringSymbol _ _) fun _ => .emit rfl
  · exact .readName _ _

theorem attributeNames_follows (property : Expr) :
    Follows v lib.includeFolder (.called ((Part.expr property).calls logs)) (attributeNames property) := by
  unfold attributeNames
  split
  · exact .own (.symbol _) fun _ => .pure _
  · simpa [Expr.nodes, Occurrence.calls, Part.isOpen, Part.ownCalls] using Follows.pathSymbols _
  · exact .reject

theorem delegate_follows (loc : Loc) (id : Expr) :
    Follows v lib.includeFolder (.members id.ident?.toList + .called ((Part.expr id).calls logs))
      (delegate v loc id) := by
  refine .own .require fun _ => ?_
  cases hname : id.ident? with
  | none => exact .reject
  | some name =>
    rw [calls_of_ident hname, called_zero, add_zero]
    refine .looked fun x hx => .own (.emit rfl) fun _ => .own (.define _ _) fun _ => ?_
    refine .own .require fun _ => ?_
    simpa using FollowsKnowing.bind (.addMember hx) fun _ => .of_follows (.warn _)

theorem importName_follows (loc : Loc) (specifiers : List Expr) (target : String)
    (asName : Option String) :
    Follows v lib.includeFolder 0 (importName v loc specifiers target asName) := by
  refine .own .require fun _ => .own .require fun _ => ?_
  refine .own (.mapM _ fun e _ => ?_) fun parts => .own (.mapM _ fun _ _ => .symbol _) fun path => ?_
  · unfold specifierName
    split
    · exact .pure _
    · exact .reject
  refine .own (.symbol _) fun _ => .own (.symbol _) fun _ => .own (.symbol _) fun _ => ?_
  refine .own (.own .get fun _ => .pure _) fun _ => ?_
  exact .own (.addStatics _) fun _ => .emit rfl

theorem declareParameter_follows (name : String) (child : Draft) :
    Follows v folder 0 (declareParameter name child) := by
  refine .own (.symbol _) fun x => .own (.rests fun s r t h => ?_) fun _ => .pure _
  obtain ⟨-, rfl⟩ := onDraft_ok.1 h
  exact .of_frame (.refl _) rfl

end

/-- The action brings the draft of a subroutine further and has the deeds. -/
structure FollowsIn (v : Version) (folder : Option String) (a : Deeds) (x : Draft → Emit Draft) :
    Prop where
  follows : ∀ child, Follows v folder a (x child)
  prepares : ∀ ⦃child s d t enclosing⦄, s.Settled folder → child.Ready v s.symbols enclosing →
    x child s = .ok (d, t) → d.Ready v t.symbols enclosing

namespace FollowsIn

variable {a : Deeds}

theorem own {α : Type} {x : Emit α} {f : α → Draft → Emit Draft} (hx : Follows v folder 0 x)
    (hf : ∀ r, FollowsIn v folder a (f r)) :
    FollowsIn v folder a fun child => x >>= fun r => f r child where
  follows child := .own hx fun r => (hf r).follows child
  prepares _ _ _ _ _ hs hc h := by
    obtain ⟨r, u, h1, h2⟩ := bind_ok.1 h
    obtain ⟨ds, hcourse, -⟩ := hx hs h1
    exact (hf r).prepares (hcourse.widens.settled hs) (hc.mono hcourse.widens.symbols) h2

theorem reject {loc : Loc} {cause : Cause} :
    FollowsIn v folder a fun _ => reject loc cause where
  follows _ := .reject
  prepares _ _ _ _ _ _ _ h := (reject_ok.1 h).elim

theorem declared {x : Emit Unit} {g : Draft → Draft} (hx : Follows v folder a x)
    (hg : ∀ ⦃symbols enclosing child⦄, child.Ready v symbols enclosing →
      (g child).Ready v symbols enclosing) :
    FollowsIn v folder a (fun child => do
      let child ← declareParameter name child
      x
      pure (g child)) where
  follows child := .own (declareParameter_follows _ _) fun child => .last hx fun _ => .pure _
  prepares _ _ _ _ _ hs hc h := by
    simp only [bind_ok, pure_ok] at h
    obtain ⟨d', r, h1, _, r', h2, rfl, rfl⟩ := h
    obtain ⟨hwide, -, hd⟩ := hc.declare h1
    obtain ⟨ds, hcourse, -⟩ := hx (hwide.settled hs) h2
    exact hg (hd.mono hcourse.widens.symbols)

end FollowsIn

section

variable {e left right : Expr} {loc : Loc} {op : AssignOp}

theorem Deeds.of_name (h : e.ident? = some name) : of lib v logs (.expr e) = 0 := by
  obtain ⟨loc, rfl⟩ := Expr.exists_of_ident? h
  exact of_leaf rfl rfl rfl rfl

theorem isQuiet_of_isInline {u : Use} (hu : u.isInline = true) : u.part.isQuiet = true := by
  rcases u with ⟨role, e⟩ | s
  · cases e <;> first | rfl | cases hu
  · cases s <;> first | rfl | cases hu

/-- A node has its own deeds and those of what it is lowered to. -/
theorem Deeds.all_inline {u : Use} (hu : u.isInline = true) :
    all lib v logs ([u].map Use.part) = members u.part.members + called (u.part.aside logs) +
      all lib v logs ((u.uses v).map Use.part) := by
  rw [all_use, of_quiet (isQuiet_of_isInline hu)]
  rcases Use.parts_eq v hu with h | ⟨e, name, he, h | h⟩ <;> rw [h]
  · rw [all_cons, of_name he, zero_add]
  · rw [all_append, all_singleton, of_name he, add_zero]

end

/-- What is done to the names of the frame, and how often something is called. -/
abbrev following (lib : Library) (v : Version) (logs : Bool) : Judgment v where
  Index := Deeds
  zero := 0
  add a b := a + b
  zero_add := zero_add
  add_zero := add_zero
  add_assoc := add_assoc
  Holds a x := Follows v lib.includeFolder a x
  Readies a f := FollowsIn v lib.includeFolder a f
  all us := .all lib v logs (us.map Use.part)
  all_nil := Deeds.all_nil
  all_append us ws := by rw [map_append, Deeds.all_append]
  own p := .members p.members + .called (p.aside logs)
  own_mute {u} hu hm := by
    have hmute : u.part.members = [] ∧ u.part.aside logs = 0 := by
      rcases u with ⟨role, e⟩ | s
      · cases e
        case binary loc op left right =>
          cases op <;> first | exact ⟨rfl, rfl⟩ | exact (Bool.false_ne_true hm).elim
        case assignPattern | rest =>
          obtain ⟨name, hname⟩ := Option.isSome_iff_exists.1 hm
          exact ⟨rfl, (Part.aside_eq rfl rfl).trans (calls_of_ident hname)⟩
        all_goals first
          | exact ⟨rfl, rfl⟩
          | exact (Bool.false_ne_true hm).elim
          | exact (Bool.false_ne_true hu).elim
      · cases s <;> first
          | exact ⟨rfl, rfl⟩
          | exact (Bool.false_ne_true hm).elim
          | exact (Bool.false_ne_true hu).elim
    rw [hmute.1, hmute.2, members_nil, called_zero, zero_add]
  own_comm _ _ := add_comm _ _
  since _ := 0
  since_none := rfl
  bound declares names := .bound declares names
  bound_false := bound_false
  bound_nil := bound_nil
  bound_append := bound_append
  bound_comm _ _ _ := add_comm _ _
  all_referred _ := rfl
  all_behind _ _ := rfl
  all_refer _ _ := rfl
  pure a := .pure a
  bind hx hf := .bind hx hf
  reject hs h := Follows.reject hs h
  discard hx := .discard hx
  checked _ hx := by
    rw [zero_add]
    exact require_bind .reject hx
  node hu hx := by
    rw [zero_add] at hx
    rwa [all_inline hu]
  named he hx := by rwa [Deeds.all_use, Use.part, Deeds.of_name he] at hx
  emit {op _} hop _ := by
    cases op with
    | counted op n => cases op <;> first | exact .emit rfl | cases hop
    | _ => first | exact .emit rfl | cases hop
  lookedFor hx _ _ hy := by
    cases hx
    · exact .own (.symbol _) fun _ => .own (.emit rfl) fun _ => hy
    · exact .own (.stringSymbol _ _) fun _ => .own (.emit rfl) fun _ => hy
    · exact .own (.operatorSymbol _ _) fun _ => .own (.emit rfl) fun _ => hy
  identifier loc name := identifier_follows loc name
  member _ _ _ := .member _ _ _
  pushName _ _ _ := .pushName _ _ _
  declareName _ := .declareName _
  optionalElement _ hx := .own (.emit rfl) fun _ => .last hx fun _ => .own (.emit rfl) fun _ => .warn _
  optionalAttribute _ hx := .own (.emit rfl) fun _ => .own (.warn _) fun _ => hx
  attributeEval _ _ property _ _ := by
    rw [Part.aside_eq rfl rfl, show Part.members _ = [] from rfl, members_nil, zero_add]
    exact .last (attributeNames_follows property) fun _ => .emit rfl
  attributePush _ _ _ _ hname := by
    rw [Part.aside_eq rfl rfl, show Part.members _ = [] from rfl, members_nil, zero_add,
      calls_of_ident hname]
    exact .own (.symbol _) fun _ => .emit rfl
  call _ _ _ _ _ := by
    rw [show Part.members _ = [] from rfl, members_nil, zero_add]
    exact .call rfl rfl
  variadicCall _ _ _ _ _ := by
    rw [show Part.members _ = [] from rfl, members_nil, zero_add]
    exact .last (.call rfl rfl) fun _ => .warn _
  instanceOf _ _ _ _ hx := by
    rw [show Part.members _ = [] from rfl, members_nil, zero_add, add_comm]
    exact .own (.symbol _) fun _ => .own (.emit rfl) fun _ => .bind hx fun _ => .call rfl rfl
  define {p _ _ _ _} _ hp hm _ hcheck := by
    have haside : p.aside logs = 0 := by
      unfold Part.isMember at hp
      split at hp <;> first | rfl | cases hp
    rw [hm, haside, called_zero, add_zero]
    refine .looked fun x hx => .own (.emit rfl) fun _ => .own (.define _ _) fun _ => ?_
    exact .own (hcheck _ _) fun _ => .addMember hx
  arrayPattern {_ _ _ es} loc hx := by
    rw [Use.map_part_exprs] at hx
    rw [all_use, Use.part, of_quiet rfl,
      show Part.aside _ (.expr _) = 0 from rfl]
    simpa [Part.members, Part.parts, Expr.parts, Expr.bound] using hx
  noParameter _ _ := .reject
  declaredParameter _ isRest hx := .declared hx fun _ _ _ h => by
    cases isRest with
    | false => exact h
    | true => exact h.rest
  checkedParameter _ hf := by
    rw [zero_add]
    exact .own .require fun _ => hf
  parameterNode hu hf := by
    rw [zero_add] at hf
    rwa [all_inline hu]

end Adhoc
