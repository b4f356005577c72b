import Adhoc.Proofs.JudgedExpr
import Adhoc.Proofs.SafeScope

namespace Adhoc

open Emit List Trail Draft

variable {α : Type} {n : Regime} {name : String} {lib : Library} {v : Version} {js : List Nat}
  {x : Emit α} {h : Known} {o : Prop}

section

variable {β : Type} {js1 : α → List Nat} {js' : β → List Nat} {p : Part} {ps qs : List Part}
  {f : α → Emit β}

namespace Safe

theorem leaf (hx : Safe n o h js ⊥ js1 x) : Safe n o h js (.all lib v []) js1 x := by
  rwa [Trail.all_nil]

theorem append (hx : Safe n o h js (.all lib v ps) js1 x)
    (hf : ∀ a, Safe n o h (js1 a) (.all lib v qs) js' (f a)) :
    Safe n o h js (.all lib v (ps ++ qs)) js' (x >>= f) := by
  rw [Trail.all_append]
  exact bind hx hf

theorem first (hx : Safe n o h js (.all lib v [p]) js1 x)
    (hf : ∀ a, Safe n o h (js1 a) (.all lib v ps) js' (f a)) :
    Safe n o h js (.all lib v (p :: ps)) js' (x >>= f) := by
  rw [← singleton_append]
  exact append hx hf

theorem node (hp : p.isThrough = true) (hx : Safe n o h js (.all lib v (p.parts v)) js1 x) :
    Safe n o h js (.all lib v [p]) js1 x := by
  rwa [all_singleton, of_through hp]

end Safe

end

section

variable (n : Regime) (lib : Library) (v : Version)

/-- The action behaves and leaves the trail of the parts. -/
def Tracks {α : Type} (ps : List Part) (x : Emit α) : Prop := Behaves n (.all lib v ps) x

/-- The same of an action that may bring the frame to a return. -/
def Performs {α : Type} (ps : List Part) (x : Emit α) : Prop := Acts n (.all lib v ps) x

/-- The draft of a subroutine before its body. -/
structure Draft.Blank (symbols : SymbolTable) (d : Draft) : Prop where
  sound : d.Sound symbols
  code : d.code = #[]
  marks : d.marks = [⟨.block, [], []⟩]
  returns : d.returnsAtTop = false

/-- The action gets the draft of a subroutine ready and behaves besides. -/
def Prepares (D : Trail) (x : Draft → Emit Draft) : Prop :=
  ∀ ⦃h js s child⦄, s.Holds h js → s.frame.scopes ≠ [] → child.Blank s.symbols →
    Answers (s.Blames n D) (fun d t => (RunInvariant n D js js s t ∧ t.Holds h js) ∧
      d.Blank t.symbols ∧ d.source = child.source) (x child s)

end

namespace Draft.Blank

variable {symbols symbols' : SymbolTable} {child d : Draft} (hb : child.Blank symbols)
include hb

theorem mono (hl : ∀ x, symbols.Lists x → symbols'.Lists x) :
    child.Blank symbols' := { hb with sound := hb.sound.mono hl }

theorem scopes_ne : child.scopes ≠ [] := by
  intro hnil
  have := hb.marks
  simp [Draft.marks, hnil] at this

theorem tidy : child.sketch.Tidy := by
  have hnotes : child.sketch.notes = [] := by
    simp [Sketch.notes, sketch, hb.marks, Mark.notes]
  refine ⟨fun k hk => ?_, hnotes ▸ .nil, fun m hm _ => ?_, fun m hm _ => ?_⟩
  · rw [hnotes] at hk
    cases hk
  all_goals
    rw [sketch, hb.marks, mem_singleton] at hm
    rw [hm]

theorem base :
    ∀ kind ∈ (child.scopes.map Scope.kind).getLast?, kind = .block := by
  have hkinds : child.scopes.map Scope.kind = [.block] := by
    rw [← marks_kinds, hb.marks]
    rfl
  simp [hkinds]

theorem exits : child.Exits [] := .of_empty hb.code hb.returns

theorem parameter {x : Symbol} (hx : symbols.Lists x)
    (hr : addParameter x child = .ok ((), d)) : d.Blank symbols ∧ d.source = child.source := by
  obtain ⟨i, huse⟩ := addParameter_uses hr
  obtain ⟨hresolves, -, hcaptured⟩ := useLocal_slots huse
  have hsource : d.source = child.source := congrArg (·.source) hresolves
  obtain ⟨y, hy, hl⟩ := hb.sound.source
  refine ⟨⟨⟨⟨y, hsource.trans hy, hl⟩, fun z hz => ?_, fun z hz => ?_, fun ins hins => ?_⟩,
    hresolves.code.trans hb.code, (useLocal_neutral x huse).marks.trans hb.marks,
    (congrArg (·.returnsAtTop) hresolves).trans hb.returns⟩, hsource⟩
  · rw [hresolves.remains.parameters] at hz
    rcases mem_append.1 hz with hz | hz
    · exact hb.sound.parameters z hz
    · exact mem_singleton.1 hz ▸ hx
  · exact hb.sound.captured z (hcaptured ▸ hz)
  · exact hb.sound.code ins (hresolves.code ▸ hins)

theorem rest : Draft.Blank symbols { child with hasRest := true } :=
  ⟨⟨hb.sound.source, hb.sound.parameters, hb.sound.captured, hb.sound.code⟩, hb.code, hb.marks, hb.returns⟩

theorem reserveSlot (v : Version) (isMethod : Bool) :
    (Emit.reserveSlot v isMethod child).Blank symbols ∧
      (Emit.reserveSlot v isMethod child).source = child.source := by
  unfold Emit.reserveSlot
  split
  · exact ⟨⟨⟨hb.sound.source, hb.sound.parameters, hb.sound.captured, hb.sound.code⟩, hb.code, hb.marks,
      hb.returns⟩, rfl⟩
  · exact ⟨hb, rfl⟩

end Draft.Blank

section

variable {D E : Trail} {g : Draft → Draft} {f : α → Draft → Emit Draft}

namespace Prepares

theorem bind {x f : Draft → Emit Draft} (hx : Prepares n D x) (hf : Prepares n E f) :
    Prepares n (D ⊔ E) fun child => x child >>= f := by
  intro h js s child hs ho hc
  refine ((hx hs ho hc).mono (fun hb => hb.mono le_sup_left) fun _ _ h => h).bind ?_
  rintro d r ⟨⟨hp, hr⟩, hd, hsource⟩
  refine (hf hr (hp.scopes_ne ho) hd).mono hp.blames ?_
  rintro d' t ⟨⟨hp', ht⟩, hd', hsource'⟩
  exact ⟨⟨hp.trans hp', ht⟩, hd', hsource'.trans hsource⟩

theorem during (hx : Behaves n D x) (hf : ∀ a, Prepares n E (f a)) :
    Prepares n (D ⊔ E) fun child => x >>= fun a => f a child := by
  intro h js s child hs ho hc
  refine ((hx s hs fun _ => ho).mono (fun hb => hb.mono le_sup_left) fun _ _ h => h).bind ?_
  rintro a r ⟨hp, hr⟩
  refine (hf a hr (hp.scopes_ne ho) (hc.mono hp.lists)).mono hp.blames ?_
  rintro d' t ⟨⟨hp', ht⟩, hd', hsource⟩
  exact ⟨⟨hp.trans hp', ht⟩, hd', hsource⟩

theorem own (hx : Behaves n ⊥ x) (hf : ∀ a, Prepares n D (f a)) :
    Prepares n D fun child => x >>= fun a => f a child := by
  have := during hx hf
  rwa [bot_sup_eq] at this

theorem reject {loc : Loc} {cause : Cause} : Prepares n D fun _ => Emit.reject loc cause :=
  fun _ _ _ _ _ _ _ => trivial

theorem pure (hg : ∀ symbols child, child.Blank symbols →
    (g child).Blank symbols ∧ (g child).source = child.source) :
    Prepares n ⊥ fun child => Pure.pure (g child) := by
  intro h js s child hs _ hc
  have hidle : s.Idles s := .of_frame hs.table (fun _ hx => hx) rfl rfl
  exact ⟨⟨hidle.runInvariant js, hs⟩, hg _ _ hc⟩

theorem declare (name : String) : Prepares n ⊥ (declareParameter name) := by
  intro h js s child hs ho hc
  have hfirst : Gives n True h js ⊥ (fun x => { names := [x] }) (fun _ => js) (symbol name) :=
    (Interns.symbol name).gives
  refine (hfirst s hs fun _ => ho).bind ?_
  rintro x r ⟨hp, hr⟩
  have hchild := hc.mono hp.lists
  obtain ⟨i, d, hd⟩ := resolve_total
    (d := { child with parameters := child.parameters ++ [x] }) hchild.scopes_ne x .declare
  have hadd : addParameter x child = .ok ((), d) := by
    rw [show addParameter x child = (resolve x .declare
      { child with parameters := child.parameters ++ [x] }).bind fun p => .ok ((), p.2) from rfl, hd]
    rfl
  obtain ⟨hblank, hsource⟩ := hchild.parameter (hr.names x (by simp)) hadd
  refine .of_ok (bind_ok.2 ⟨((), d), r, onDraft_ok.2 ⟨hadd, rfl⟩, rfl⟩) ?_
  exact ⟨⟨hp, hr.forget⟩, hblank, hsource⟩

theorem declared {x : Emit Unit} (hx : Behaves n D x) (hg : ∀ symbols child, child.Blank symbols →
      (g child).Blank symbols ∧ (g child).source = child.source) :
    Prepares n D (fun child => do
      let child ← declareParameter name child
      x
      Pure.pure (g child)) := by
  have := bind (declare name) (during hx fun _ => pure hg)
  rwa [bot_sup_eq, sup_bot_eq] at this

end Prepares

end

section

variable {e left right : Expr}

theorem identifier_safe (ho : o) (loc : Loc) (name : String) :
    Clean n o h js (identifier v loc name) := by
  unfold identifier
  split
  · exact .plain (by split <;> rfl) (by split <;> rfl)
  · refine .ownLearn .frame fun f => ?_
    cases hf : f.source with
    | some file =>
      simp only [pure_bind]
      exact .emit rfl (by simp)
    | none =>
      exact .looked (.stringSymbol _ _) fun _ => .emit rfl (by simp)
  · exact .readName ho _ _

theorem attributeNames_interns (property : Expr) :
    Interns (fun xs => xs) (attributeNames property) := by
  unfold attributeNames
  split
  · exact .bind (.symbol _) fun _ => .pure _ (by simp)
  · exact .pathSymbols _
  · exact .reject

theorem delegate_safe (loc : Loc) (id : Expr) : Behaves n ⊥ (Emit.delegate v loc id) := by
  refine .own .require fun _ => ?_
  cases id.ident? with
  | none => exact .reject
  | some name =>
    refine .looked (.symbol _) fun x => .own (.emit rfl (by simp)) fun _ => ?_
    refine .own (.define _ _) fun _ => .own .require fun _ => ?_
    exact .own (.addMember trivial (by simp)) fun _ => .warn _

theorem importName_safe (loc : Loc) (specifiers : List Expr) (target : String)
    (asName : Option String) : Behaves n ⊥ (Emit.importName v loc specifiers target asName) := by
  have hparts : Interns (fun _ => []) (specifiers.mapM specifierName) := by
    induction specifiers with
    | nil => exact .pure [] rfl
    | cons e specifiers ih =>
      rw [mapM_cons]
      have he : Interns (fun _ => []) (specifierName e) := by
        unfold specifierName
        split
        · exact .pure _ rfl
        · exact .reject
      exact .bind he fun _ => .bind ih fun _ => .pure _ rfl
  intro h js
  refine .own .require fun _ => .own .require fun _ => ?_
  refine .looked hparts fun parts => .looked (.symbols _) fun path => .looked (.symbol _) fun full => ?_
  refine .looked (.symbol _) fun target => .looked (.symbol _) fun asName => ?_
  refine .own (.own .get fun _ => .pure _) fun imported => .own (.addStatics _) fun _ => ?_
  exact .emit rfl (by simp; grind)

theorem Trail.of_name (h : e.ident? = some name) : of lib v (.expr e) = ⊥ := by
  obtain ⟨loc, rfl⟩ := Expr.exists_of_ident? h
  rw [of_through rfl]
  exact all_nil

theorem isThrough_of_isInline {u : Use} (hu : u.isInline = true) : u.part.isThrough = true := by
  rcases u with ⟨role, e⟩ | s
  · cases e <;> first | rfl | cases hu
  · cases s <;> first | rfl | cases hu

theorem Trail.all_inline {u : Use} (hu : u.isInline = true) :
    all lib v ([u].map Use.part) = all lib v ((u.uses v).map Use.part) := by
  rw [map_singleton, all_singleton, of_through (isThrough_of_isInline hu)]
  rcases Use.parts_eq v hu with h | ⟨e, name, he, h | h⟩ <;> rw [h]
  · rw [all_cons, of_name he, bot_sup_eq]
  · rw [all_append, all_singleton, of_name he, sup_bot_eq]

end

/-- What is safe, up to what escapes. -/
abbrev safety (n : Regime) (lib : Library) (v : Version) : Judgment v where
  Index := Trail
  zero := ⊥
  add D E := D ⊔ E
  zero_add := bot_sup_eq
  add_zero := sup_bot_eq
  add_assoc := sup_assoc
  Holds D x := Behaves n D x
  Readies D f := Prepares n D f
  all us := .all lib v (us.map Use.part)
  all_nil := Trail.all_nil
  all_append us ws := by rw [List.map_append, Trail.all_append]
  own _ := ⊥
  own_mute _ _ := rfl
  own_comm _ _ := sup_comm _ _
  since _ := ⊥
  since_none := rfl
  bound _ _ := ⊥
  bound_false _ := rfl
  bound_nil _ := rfl
  bound_append _ _ _ := (bot_sup_eq _).symm
  bound_comm _ _ _ := sup_comm _ _
  all_referred _ := rfl
  all_behind _ _ := rfl
  all_refer _ _ := rfl
  pure a := .pure a
  bind hx hf := .bind hx fun r => hf r
  reject := .reject
  discard hx := .discard hx
  checked _ hx := by
    rw [bot_sup_eq]
    exact require_bind .reject fun hc => hx hc
  node hu hx := by
    rw [bot_sup_eq, bot_sup_eq] at hx
    rwa [all_inline hu]
  named he hx := by rwa [List.map_singleton, Trail.all_singleton, Use.part, Trail.of_name he] at hx
  emit {op _} hop _ := by cases op <;> first | exact .plain rfl rfl | cases hop
  lookedFor hx _ _ hy := by
    cases hx
    · exact .looked (.symbol _) fun _ => .own (.emit rfl (by simp))
        fun _ => hy.safe
    · exact .looked (.stringSymbol _ _) fun _ =>
        .own (.emit rfl (by simp)) fun _ => hy.safe
    · exact .looked (.operatorSymbol _ _) fun _ =>
        .own (.emit rfl (by simp)) fun _ => hy.safe
  identifier loc name := identifier_safe trivial loc name
  member _ _ _ := .member trivial _ _ _
  pushName _ _ _ := .pushName trivial _ _ _
  declareName _ := .declareName trivial _
  optionalElement _ hx := .own (.plain rfl rfl) fun _ => .last hx fun _ => .own (.plain rfl rfl) fun _ =>
    .warn _
  optionalAttribute _ hx := .own (.plain rfl rfl) fun _ => .own (.warn _) fun _ => hx
  attributeEval _ _ _ _ _ := .looked (attributeNames_interns _) fun _ =>
    .emit rfl fun _ hy => mem_append_left _ hy
  attributePush _ _ _ _ _ := .looked (.symbol _) fun _ =>
    .emit rfl (by simp)
  call _ _ _ _ _ := .plain rfl rfl
  variadicCall _ _ _ _ _ := .own (.plain rfl rfl) fun _ => .warn _
  instanceOf _ _ _ _ hx := by
    rw [bot_sup_eq]
    refine .looked (.symbol _) fun _ => .own (.emit rfl (by simp))
      fun _ => ?_
    exact .last hx.safe fun _ => .plain rfl rfl
  define _ _ _ _ hcheck := by
    refine .looked (.symbol _) fun x => .own (.emit rfl (by simp)) fun _ => .own (.define _ _) fun _ => ?_
    exact .own (hcheck _ _).safe fun _ => .addMember trivial (by simp)
  arrayPattern {_ _ _ es} loc hx := by
    rw [Use.map_part_exprs] at hx
    rw [bot_sup_eq] at hx ⊢
    exact .node rfl hx
  noParameter _ _ := .reject
  declaredParameter _ isRest hx := .declared hx fun _ _ h => by
    cases isRest with
    | false => exact ⟨h, rfl⟩
    | true => exact ⟨h.rest, rfl⟩
  checkedParameter _ hf := by
    rw [bot_sup_eq]
    exact .own .require fun _ => hf
  parameterNode hu hf := by
    rw [bot_sup_eq, bot_sup_eq] at hf
    rwa [all_inline hu]

section

variable (n : Regime) (lib : Library) (v : Version)

/-- The code of an expression is safe in each of its uses. -/
abbrev ExprSafe := ExprJudged (safety n lib v)

/-- The code of a statement is safe in each of its uses. -/
structure StmtSafe (s : Stmt) (c : StmtCode) : Prop where
  stmt : c.stmt = s
  run : Performs n lib v [.stmt s] c.run
  closed : s.isClosed = true → Tracks n lib v [.stmt s] c.run
  block : ∀ body, c.block? = some body → s.isClosed = true ∧ Performs n lib v [.stmt s] body
  loop : ∀ loop, c.loop? = some loop → s.isLoop = true ∧
    ∀ label, Behaves n (.loop lib v label s) (loop label)
  declares : ∀ declares, c.declares? = some declares → ∀ fromStack,
    Tracks n lib v [.stmt s] (declares fromStack)

abbrev NodeSafe := NodeRel (ExprSafe n lib v) (StmtSafe n lib v)

end

section

variable {left right : Expr} {l r : ExprCode}

theorem logical_tracks (loc : Loc) (op : LogicalOp) (hl : ExprSafe n lib v left l)
    (hr : ExprSafe n lib v right r) :
    Tracks n lib v [.expr left, .expr right] (Emit.logical v loc op l r) := by
  intro h js
  unfold Emit.logical
  split
  · refine .own .require fun _ => .first hl.kept fun _ => .own (.jump _) fun k => ?_
    exact .last hr.value fun _ => .own (.patchHere (.refl _)) fun _ => .warn _
  · have hright : ∀ k, Safe n True h (k :: js) (.all lib v [.expr right]) (fun _ => js) (do
        r.value
        patchHere k) := fun k => .last hr.value fun _ => .patchHere (.refl _)
    refine .first hl.kept fun _ => .own (.jump _) fun k => ?_
    exact .ite (.own .pop fun _ => hright k) (hright k)

theorem conditional_tracks {test consequent alternate : Expr} {ct cc ca : ExprCode}
    (ht : ExprSafe n lib v test ct) (hc : ExprSafe n lib v consequent cc)
    (ha : ExprSafe n lib v alternate ca) :
    Tracks n lib v [.expr test, .expr consequent, .expr alternate] (conditional v ct cc ca) := by
  intro h js
  refine .first ht.value fun _ => .own (.jump _) fun k1 => ?_
  refine .first hc.referred fun _ => .own (.jump _) fun k2 => ?_
  have hrest : Safe n True h (k2 :: k1 :: js) (.all lib v [.expr alternate]) (fun _ => js) (do
      patchHere k1
      ca.value
      patchHere k2) :=
    .own (.patchHere (.swap _ _ _)) fun _ => .last ha.value fun _ => .patchHere (.refl _)
  exact .ite (.own .pop fun _ => hrest) (.own (.dropDepth 1) fun _ => hrest)

end

end Adhoc
