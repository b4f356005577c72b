import Adhoc.Proofs.JudgedExpr
import Adhoc.Proofs.Evidence

namespace Adhoc

open Emit Operation

variable {v : Version} {role : Role} {c : Capability} {name : String} {lib : Library} {logs : Bool}
  {n : Nat}

namespace Signs

variable {e : Expr}

theorem of_referred (h : ∀ loc a, e ≠ .unary loc .refer a) :
    of lib v logs (.expr .referred e) = of lib v logs (.expr .value e) := by
  refine of_congr rfl ?_ ?_
  · cases e <;> rfl
  · cases e
    case unary loc op a =>
      cases op <;> first | exact absurd rfl (h loc a) | rfl
    case await loc a => cases a <;> rfl
    all_goals rfl

theorem of_behind (hrole : role.isValue = true) (h : match e with
    | .ident .. | .attribute .. | .path .. | .element .. => True
    | _ => False) : of lib v logs (.expr role e) = of lib v logs (.expr .value e) := by
  cases role <;> cases hrole <;> cases e <;> first | exact h.elim | exact of_congr rfl rfl rfl

theorem of_place_refer (loc : Loc) : of lib v logs (.expr .place (.unary loc .refer e)) =
    of lib v logs (.expr .value (.unary loc .refer e)) := of_congr rfl rfl rfl

theorem of_name (h : e.ident? = some name) : of lib v logs (.expr role e) = ⊥ := by
  obtain ⟨loc, rfl⟩ := Expr.exists_of_ident? h
  rw [of_quiet rfl]
  exact all_nil

end Signs

section

theorem identifier_evinces (loc : Loc) (name : String) : Evinces v ⊥ (identifier v loc name) := by
  unfold identifier
  split
  · split
    · exact .emit (isAdmitted_of_has ‹_› rfl) rfl
    · exact .plain rfl rfl
  · refine .own (.neutral .frame) fun f => ?_
    cases f.source with
    | some file => exact .own (.pure _) fun _ => .plain rfl rfl
    | none => exact .own (.neutral (.stringSymbol _ _)) fun _ => .plain rfl rfl
  · exact .readName _ _

theorem addMember_evinces (symbol : Symbol) : Evinces v ⊥ (addMember symbol) :=
  .neutral (addMember_neutral _)

theorem delegate_evinces (loc : Loc) (id : Expr) :
    Tells lib v logs [.stmt (.delegate loc id)] (delegate v loc id) := by
  refine .gated rfl (.since rfl fun hv => .leaf ?_)
  cases id.ident? with
  | none => exact .reject
  | some name =>
    refine .own (.neutral (.symbol _)) fun x => ?_
    refine .warned (w := .delegate) rfl (isAdmitted_of_has hv rfl) rfl rfl ?_
    refine .own (.neutral (.define _ _)) fun _ => .own .require fun _ => ?_
    exact .own (addMember_evinces _) fun _ => .warn _

theorem importName_evinces (loc : Loc) (specifiers : List Expr) (target : String)
    (asName : Option String) : Evinces v ⊥ (importName v loc specifiers target asName) := by
  refine .own .require fun _ => .own .require fun _ => ?_
  refine .own (.neutral (.mapM _ fun _ _ => specifierName_neutral _)) fun parts => ?_
  refine .own (.neutral (.mapM _ fun _ _ => .symbol _)) fun path => ?_
  refine .own (.neutral (.symbol _)) fun full => .own (.neutral (.symbol _)) fun target => ?_
  refine .own (.neutral (.symbol _)) fun asName => ?_
  refine .own (.neutral (.bind .get fun _ => .pure _)) fun imported => ?_
  exact .own (.onFrame (Draft.addStatics_blind _)) fun _ => .plain rfl rfl

theorem selfValue_evinces (loc : Loc) :
    Tells lib v logs [.expr role (.selfRef loc)] (selfValue v loc) :=
  .gated rfl (.since rfl fun _ => .leaf (.own (.neutral (.symbol _)) fun _ => .plain rfl rfl))

end

namespace EvincesIn

variable {D : Signs}

theorem own {α : Type} {x : Emit α} {f : α → Draft → Emit Draft} (hx : Evinces v ⊥ x)
    (hf : ∀ a, EvincesIn v D (f a)) : EvincesIn v D fun child => x >>= fun a => f a child where
  evinces child := .own hx fun a => (hf a).evinces child
  code child s d t h := by
    obtain ⟨a, r, -, h⟩ := bind_ok.1 h
    exact (hf a).code h

theorem since {loc : Loc} {cause : Cause} {f : Draft → Emit Draft} (hc : c.span = (n, 13))
    (hf : EvincesIn v D f) : EvincesIn v ((fun _ => {.since n}) ⊔ D) fun child => do
      require (v.has c) loc cause
      f child where
  evinces child := .since hc fun _ => hf.evinces child
  code := (own .require fun _ => hf : EvincesIn v D _).code

theorem reject {loc : Loc} {cause : Cause} : EvincesIn v D fun _ => reject loc cause :=
  ⟨fun _ => .reject, fun _ _ _ _ h => (reject_ok.1 h).elim⟩

theorem declared {x : Emit Unit} {g : Draft → Draft} (hx : Evinces v D x)
    (hg : ∀ child, (g child).code = child.code) : EvincesIn v D (fun child => do
      let child ← declareParameter name child
      x
      pure (g child)) where
  evinces child := .own (.neutral (declareParameter_neutral _ _)) fun _ => .last hx fun _ => .pure _
  code child s d t h := by
    simp only [declareParameter, bind_ok, pure_ok, onDraft_ok] at h
    obtain ⟨d, _, ⟨_, _, -, ⟨_, _⟩, _, ⟨h, -⟩, rfl, -⟩, _, _, -, rfl, -⟩ := h
    exact (hg _).trans (Draft.addParameter_ok h).code

end EvincesIn

/-- A check that the version is not older, if there is one. -/
def Signs.since (n : Option Nat) : Signs := fun _ => {e | ∃ k, n = some k ∧ e = .since k}

theorem Signs.since_some (n : Nat) : since (some n) = fun _ => {.since n} := by
  funext f
  ext e
  simp [since]

theorem not_isApart_of_isInline {u : Use} (hu : u.isInline = true) : u.isApart = false := by
  rcases u with ⟨role, e⟩ | s
  · cases e <;> first | rfl | cases hu
  · cases s <;> first | rfl | cases hu

/-- What is shown of the version. -/
abbrev evidenceOf (lib : Library) (v : Version) (logs : Bool) : Judgment v where
  Index := Signs
  zero := ⊥
  add D E := D ⊔ E
  zero_add := bot_sup_eq
  add_zero := sup_bot_eq
  add_assoc := sup_assoc
  Holds D x := Evinces v D x
  Readies D f := EvincesIn v D f
  all us := .all lib v logs us
  all_nil := Signs.all_nil
  all_append _ _ := Signs.all_append
  own _ := ⊥
  own_mute _ _ := rfl
  own_comm _ _ := sup_comm _ _
  since n := .since n
  since_none := by
    funext f
    ext e
    simp [Signs.since]
  bound _ _ := ⊥
  bound_false _ := rfl
  bound_nil _ := rfl
  bound_append _ _ _ := (bot_sup_eq _).symm
  bound_comm _ _ _ := sup_comm _ _
  all_referred he := by rw [Signs.all_singleton, Signs.of_referred he, Signs.all_singleton]
  all_behind hrole he := by rw [Signs.all_singleton, Signs.of_behind hrole he, Signs.all_singleton]
  all_refer loc e := by rw [Signs.all_singleton, Signs.of_place_refer, Signs.all_singleton]
  pure a := .pure a
  bind hx hf := .bind hx hf
  reject h := Evinces.reject h
  discard hx := .discard hx
  checked hc hx := by
    rw [Signs.since_some]
    exact .since hc hx
  node {_ u _} hu hx := by
    rw [bot_sup_eq] at hx
    rwa [Signs.all_singleton, Signs.of_not_isApart (not_isApart_of_isInline hu)]
  named he hx := by rwa [Signs.all_singleton, Signs.of_name he] at hx
  emit {op _} hop h := by
    refine .emit h ?_
    cases op with
    | counted o => cases o <;> first | rfl | cases hop
    | _ => first | exact hop | cases hop
  lookedFor {_ _ _ op _ _} hx hne hop hy := .own (.neutral hx.neutral) fun _ =>
    .own (.emit (hop _) (by cases op <;> first | rfl | exact absurd rfl hne)) fun _ => hy
  identifier := identifier_evinces
  member := .member
  pushName := .pushName
  declareName name := .neutral (declareName_neutral name)
  optionalElement hv hx := by
    refine .warned (w := .optional) rfl (isAdmitted_of_has hv rfl) rfl rfl (.last hx fun _ => ?_)
    exact .own (.emit (isAdmitted_of_has hv rfl) rfl) fun _ => .warn _
  optionalAttribute hv hx :=
    .warned rfl (isAdmitted_of_has hv rfl) rfl rfl (.first (.warn _) fun _ => hx)
  attributeEval _ _ _ _ _ := .own (.neutral (attributeNames_neutral _)) fun _ => .plain rfl rfl
  attributePush _ _ _ _ _ := .own (.neutral (.symbol _)) fun _ => .plain rfl rfl
  call _ _ _ _ _ := .plain rfl rfl
  variadicCall _ _ _ _ _ := .warned rfl (isAdmitted_of_always rfl) rfl rfl (.warn _)
  instanceOf _ _ _ _ hx := by
    rw [bot_sup_eq]
    refine .own (.neutral (.symbol _)) fun _ => .own (.plain rfl rfl) fun _ => ?_
    exact .last hx fun _ => .plain rfl rfl
  define {_ _ op _ _} _ _ _ hop hcheck := by
    refine .own (.neutral (.symbol _)) fun _ =>
      .own (.plain hop (by cases op <;> first | rfl | cases hop)) fun _ => ?_
    exact .own (.neutral (.define _ _)) fun _ => .own (hcheck _ _) fun _ => addMember_evinces _
  arrayPattern loc hx := by
    rw [bot_sup_eq] at hx ⊢
    exact .node rfl hx
  noParameter _ _ := .reject
  declaredParameter _ isRest hx := .declared hx fun _ => by cases isRest <;> rfl
  checkedParameter hc hf := by
    rw [Signs.since_some]
    exact .since hc hf
  parameterNode hu hf := by
    rw [bot_sup_eq] at hf
    rwa [Signs.all_singleton, Signs.of_not_isApart (not_isApart_of_isInline hu)]

theorem logicalJump_evinces (op : LogicalOp) (line : UInt32) :
    Evinces v ⊥ (jump v (logicalJump v op) line) := by
  cases op <;> simp only [logicalJump] <;> split
  all_goals
    first
    | exact .add (isAdmitted_of_has ‹_› rfl) rfl
    | exact .add (isAdmitted_of_lacks ‹_› rfl rfl) rfl

end Adhoc
