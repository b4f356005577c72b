import Adhoc.Proofs.Run
import Mathlib.Algebra.Ring.Int.Defs

namespace Adhoc

open List Draft

variable {v : Version} {ends : Prop}

def Move.change : Move → Int
  | .push n => n
  | .pop n => -n

/-- By how much the moves change the depth. -/
def net (moves : List Move) : Int := (moves.map Move.change).sum

/-- How far the moves take the depth below its start. -/
def dip : List Move → Int
  | [] => 0
  | m :: rest => max 0 (dip rest - m.change)

theorem net_append (a b : List Move) : net (a ++ b) = net a + net b := by simp [net]

theorem dip_nonneg (moves : List Move) : 0 ≤ dip moves := by
  cases moves <;> simp only [dip] <;> omega

theorem dip_append (a b : List Move) : dip (a ++ b) = max (dip a) (dip b - net a) := by
  induction a with
  | nil =>
    have := dip_nonneg b
    simp [dip, net]
    omega
  | cons m a ih =>
    simp only [cons_append, dip, ih, net, map_cons, sum_cons]
    omega

theorem neg_net_le_dip (moves : List Move) : -net moves ≤ dip moves := by
  induction moves with
  | nil => decide
  | cons m rest ih =>
    simp only [net, dip, map_cons, sum_cons] at ih ⊢
    omega

namespace Depth

theorem follow_append (d : Depth) (a b : List Move) :
    d.follow (a ++ b) = (d.follow a).follow b := by simp [follow]

theorem follow_current (d : Depth) (moves : List Move) :
    (d.follow moves).current = d.current + net moves := by
  induction moves generalizing d with
  | nil => simp [follow, net]
  | cons m rest ih =>
    rw [show d.follow (m :: rest) = (d.move m).follow rest from rfl, ih]
    cases m <;> simp [move, net, Move.change] <;> omega

theorem le_follow_lowest (d : Depth) (moves : List Move) :
    min d.lowest (d.current - dip moves) ≤ (d.follow moves).lowest := by
  induction moves generalizing d with
  | nil =>
    simp only [follow, foldl_nil]
    omega
  | cons m rest ih =>
    refine Int.le_trans ?_ (ih (d.move m))
    have := dip_nonneg rest
    cases m <;> simp only [move, dip, Move.change, push, pop] <;> omega

theorem follow_lowest (d : Depth) (moves : List Move) : (d.follow moves).lowest ≤ d.lowest := by
  induction moves generalizing d with
  | nil => simp [follow]
  | cons m rest ih =>
    refine Int.le_trans (ih (d.move m)) ?_
    cases m <;> simp only [move, push, pop] <;> omega

theorem follow_highest (d : Depth) (moves : List Move) : d.highest ≤ (d.follow moves).highest := by
  induction moves generalizing d with
  | nil => simp [follow]
  | cons m rest ih =>
    refine Int.le_trans ?_ (ih (d.move m))
    cases m <;> simp only [move, push, pop] <;> omega

theorem follow_capped {d : Depth} (h : d.current ≤ d.highest) (moves : List Move) :
    (d.follow moves).current ≤ (d.follow moves).highest := by
  induction moves generalizing d with
  | nil => exact h
  | cons m rest ih =>
    refine ih (d := d.move m) ?_
    cases m <;> simp only [move, push, pop] <;> omega

/-- The depth is between its marks. -/
def Marked (d : Depth) : Prop := d.lowest ≤ d.current ∧ d.current ≤ d.highest

theorem Marked.move {d : Depth} (h : d.Marked) (m : Move) : (d.move m).Marked := by
  obtain ⟨hlow, hhigh⟩ := h
  cases m <;> simp only [Marked, Depth.move, push, pop] <;> omega

theorem move?_of_move {d : Depth} {m : Move} (hd : d.Marked) (hlow : 0 ≤ (d.move m).lowest)
    (hhigh : (d.move m).highest < 0x80000000) : d.move? m = .ok (d.move m) := by
  obtain ⟨hlowest, hhighest⟩ := hd
  cases m with
  | push n =>
    simp only [move, push] at hlow hhigh
    rw [move?, signedWord_of_lt (by omega), push?, if_pos]
    · rfl
    · simp [isSignedWord]
      omega
  | pop n =>
    simp only [move, pop] at hlow hhigh
    rw [move?, signedWord_of_lt (by omega), pop?, if_pos]
    · rfl
    · simp [isSignedWord]
      omega

/-- Between 0 and the largest word the depth in words is the depth. -/
theorem follow?_of_follow {d : Depth} {moves : List Move} (hd : d.Marked)
    (hlow : 0 ≤ (d.follow moves).lowest) (hhigh : (d.follow moves).highest < 0x80000000) :
    d.follow? moves = .ok (d.follow moves) := by
  induction moves generalizing d with
  | nil => rfl
  | cons m rest ih =>
    have hlowest := (d.move m).follow_lowest rest
    have hhighest := (d.move m).follow_highest rest
    rw [show d.follow (m :: rest) = (d.move m).follow rest from rfl] at hlow hhigh ⊢
    rw [follow?, move?_of_move hd (by omega) (by omega)]
    exact ih (hd.move m) hlow hhigh

end Depth

theorem Draft.addByHand_of_add {op : Operation} {line : UInt32} {d e : Draft} {i : Nat}
    (h : Draft.add v op line d = .ok (i, e)) (hd : d.depth.Marked) (hlow : 0 ≤ e.depth.lowest)
    (hhigh : e.depth.highest < 0x80000000) : Draft.addByHand v op line d = .ok (i, e) := by
  unfold Draft.add at h
  split at h
  · cases h
  · rename_i moves heffect
    cases h
    rw [Draft.addByHand, heffect]
    simp only [bind, Except.bind, Depth.follow?_of_follow hd hlow hhigh]
    rfl

/-- Whether the operation neither jumps nor holds a frame nor sets the state. -/
def Operation.isStraight (op : Operation) : Bool :=
  op.target?.isNone && op.frames.isEmpty && !op.isState

/-- Instructions that neither jump nor hold a frame, and the moves that were counted for them. Only
if `ends` is true, some may set the state; the moves of such an instruction need not be its own. -/
inductive Traced (v : Version) (ends : Prop) : List Instruction → List Move → Prop
  | nil : Traced v ends [] []
  | step {line op moves is ms} : op.target? = none → op.frames = [] → op.isState = false →
    op.effect v = .ok moves → Traced v ends is ms → Traced v ends (⟨line, op⟩ :: is) (moves ++ ms)
  | stop {line state moves is ms} : ends → Traced v ends is ms →
    Traced v ends (⟨line, Emit.stateOperation v state⟩ :: is) (moves ++ ms)

theorem Traced.append {is is' : List Instruction} {ms ms' : List Move} (h : Traced v ends is ms)
    (h' : Traced v ends is' ms') : Traced v ends (is ++ is') (ms ++ ms') := by
  induction h with
  | nil => exact h'
  | step ht hf hs he _ ih => simpa using Traced.step ht hf hs he ih
  | stop hs _ ih => simpa using Traced.stop hs ih

theorem stateOperation_plain (v : Version) (state : RunState) :
    (Emit.stateOperation v state).target? = none ∧ (Emit.stateOperation v state).frames = [] := by
  unfold Emit.stateOperation
  split <;> exact ⟨rfl, rfl⟩

theorem Traced.plain {is : List Instruction} {ms : List Move} (h : Traced v ends is ms) :
    ∀ i ∈ is, i.operation.target? = none ∧ i.operation.frames = [] := by
  induction h with
  | nil => simp
  | step ht hf _ _ _ ih =>
    rintro i (_ | ⟨_, hi⟩)
    · exact ⟨ht, hf⟩
    · exact ih i hi
  | @stop _ state _ _ _ _ _ ih =>
    rintro i (_ | ⟨_, hi⟩)
    · exact stateOperation_plain v state
    · exact ih i hi

/-- From `s` to `t` straight code was appended; it changed the depth by `n` and took it at most `low`
below its start. -/
structure Appends (v : Version) (ends : Prop) (n low : Int) (s t : Session) : Prop where
  code : ∃ (is : List Instruction) (ms : List Move), t.frame.code = s.frame.code ++ is ∧
    Traced v ends is ms ∧ t.frame.depth = s.frame.depth.follow ms ∧ net ms = n ∧ dip ms ≤ low
  marks : t.frame.marks = s.frame.marks
  keeps : s.frame.Keeps t.frame
  folder : ∀ f, s.includeFolder = some f → t.includeFolder = some f

theorem Still.appends {s t : Session} (h : Still s t) (v : Version) (ends : Prop) :
    Appends v ends 0 0 s t :=
  ⟨⟨[], [], by simp [h.code], .nil, h.depth, rfl, Int.le_refl _⟩, h.marks, h.keeps, h.folder⟩

/-- An account of runs by two numbers: by how much a run changes the depth, and how far below its
start it takes the depth at most. -/
class Ledger (v : outParam Version) (ends : outParam Prop)
    (R : Int → Int → Session → Session → Prop) : Prop where
  straight {n low : Int} {s t : Session} : Appends v ends n low s t → R n low s t
  trans {n low n' low' : Int} {s r t : Session} : R n low s r → R n' low' r t →
    R (n + n') (max low (low' - n)) s t
  /-- A start or an end that leaves the depth as it was does not count. -/
  after {n low : Int} {s r t : Session} : R 0 0 s r → R n low r t → R n low s t
  before {n low : Int} {s r t : Session} : R n low s r → R 0 0 r t → R n low s t
  mono {n low n' low' : Int} {s t : Session} : R n low s t → n = n' → low ≤ low' → R n' low' s t

namespace Appends

variable {n low n' low' : Int} {s r t : Session}

theorem mono (h : Appends v ends n low s t) (hn : n = n') (hl : low ≤ low') :
    Appends v ends n' low' s t := by
  obtain ⟨⟨is, ms, hc, ht, hd, hnet, hdip⟩, hm, hk, hf⟩ := h
  exact ⟨⟨is, ms, hc, ht, hd, hnet.trans hn, Int.le_trans hdip hl⟩, hm, hk, hf⟩

theorem trans (h : Appends v ends n low s r) (h' : Appends v ends n' low' r t) :
    Appends v ends (n + n') (max low (low' - n)) s t := by
  obtain ⟨⟨is, ms, hc, ht, hd, hn, hl⟩, hm, hk, hf⟩ := h
  obtain ⟨⟨is', ms', hc', ht', hd', hn', hl'⟩, hm', hk', hf'⟩ := h'
  refine ⟨⟨is ++ is', ms ++ ms', ?_, ht.append ht', ?_, ?_, ?_⟩, hm'.trans hm, hk.trans hk',
    fun f h => hf' f (hf f h)⟩
  · rw [hc', hc]
    exact Array.ext' (by simp)
  · rw [hd', hd, Depth.follow_append]
  · rw [net_append, hn, hn']
  · rw [dip_append]
    omega

theorem bounds (h : Appends v ends n low s t) : 0 ≤ low ∧ -n ≤ low := by
  obtain ⟨⟨is, ms, -, -, -, rfl, hl⟩, -⟩ := h
  exact ⟨Int.le_trans (dip_nonneg ms) hl, Int.le_trans (neg_net_le_dip ms) hl⟩

end Appends

instance (v : Version) (ends : Prop) : Ledger v ends (Appends v ends) where
  straight := id
  trans := .trans
  after h h' := (h.trans h').mono (by omega) (by have := h'.bounds; omega)
  before h h' := (h.trans h').mono (by omega) (by have := h.bounds; omega)
  mono := .mono

namespace Emit

section

variable {α β : Type} {R : Int → Int → Session → Session → Prop} {n low n' low' : Int}

/-- Every run of the action is accounted for by the two numbers. -/
def Runs (R : Int → Int → Session → Session → Prop) (n low : Int) (x : Emit α) : Prop :=
  ∀ ⦃s a t⦄, x s = .ok (a, t) → R n low s t

namespace Runs

theorem reject {loc : Loc} {c : Cause} : Runs R n low (Emit.reject loc c : Emit α) := by
  intro s a t h
  exact (reject_ok.1 h).elim

theorem rejectThen (loc : Loc) (c : Cause) (f : α → Emit β) :
    Runs R n low (Emit.reject loc c >>= f) := by
  intro s b t h
  obtain ⟨a, r, h, -⟩ := bind_ok.1 h
  exact (reject_ok.1 h).elim

theorem discard {x : Emit α} (hx : Runs R n low x) : Runs R n low (Functor.discard x) := by
  intro s b t h
  obtain ⟨a, h⟩ := discard_ok.1 h
  exact hx h

theorem ite {c : Prop} [Decidable c] {x y : Emit α} (hx : Runs R n low x) (hy : Runs R n low y) :
    Runs R n low (if c then x else y) := by
  split
  · exact hx
  · exact hy

variable [ledger : Ledger v ends R] {f : α → Emit β}
include ledger

theorem neutral {x : Emit α} (h : Neutral x) : Runs R 0 0 x :=
  fun _ _ _ hr => Ledger.straight ((h hr).still.appends v ends)

theorem change {f : Session → Session} (h : ∀ s, Still s (f s)) : Runs R 0 0 (modify f : Emit Unit) := by
  intro s a t hr
  rw [modify_ok.1 hr]
  exact Ledger.straight ((h s).appends v ends)

theorem warn (w : Warning) : Runs R 0 0 (Emit.warn w) := by
  refine change fun s => ?_
  split
  · exact .refl _
  · exact ⟨.refl _, fun _ hf => hf⟩

theorem bind {x : Emit α} (hx : Runs R n low x) (hf : ∀ a, Runs R n' low' (f a)) :
    Runs R (n + n') (max low (low' - n)) (x >>= f) := by
  intro s b t h
  obtain ⟨a, r, h1, h2⟩ := bind_ok.1 h
  exact Ledger.trans (hx h1) (hf a h2)

theorem mono {x : Emit α} (h : Runs R n low x) (hn : n = n') (hl : low ≤ low') :
    Runs R n' low' x := fun _ _ _ hr => Ledger.mono (h hr) hn hl

theorem seq {x : Emit α} {a b c d : Int} (hx : Runs R a c x) (hf : ∀ r, Runs R b d (f r))
    (h : a + b = n ∧ c ≤ low ∧ d - a ≤ low) : Runs R n low (x >>= f) :=
  (bind hx hf).mono h.1 (by omega)

theorem push {x : Emit α} {k : Nat} (hx : Runs R 1 0 x)
    (hf : ∀ a, Runs R (n - 1) (k + 1 : Nat) (f a)) : Runs R n k (x >>= f) :=
  seq hx hf ⟨by omega, by omega, by omega⟩

theorem after {x : Emit α} (hx : Runs R 0 0 x) (hf : ∀ a, Runs R n low (f a)) :
    Runs R n low (x >>= f) := by
  intro s b t h
  obtain ⟨a, r, h1, h2⟩ := bind_ok.1 h
  exact Ledger.after (hx h1) (hf a h2)

theorem before {x : Emit α} (hx : Runs R n low x) (hf : ∀ a, Runs R 0 0 (f a)) :
    Runs R n low (x >>= f) := by
  intro s b t h
  obtain ⟨a, r, h1, h2⟩ := bind_ok.1 h
  exact Ledger.before (hx h1) (hf a h2)

theorem skip {x : Emit α} (hx : Neutral x) (hf : ∀ a, Runs R n low (f a)) :
    Runs R n low (x >>= f) := after (neutral hx) hf

theorem last {x : Emit α} (hx : Runs R n low x) (hf : ∀ a, Neutral (f a)) :
    Runs R n low (x >>= f) := before hx fun a => neutral (hf a)

theorem forM {f : α → Emit Unit} (l : List α) (h : ∀ a ∈ l, Runs R n 0 (f a)) (hn : 0 ≤ n) :
    Runs R (l.length * n) 0 (l.forM f) := by
  induction l with
  | nil => exact (neutral (.pure ())).mono (by simp) (by decide)
  | cons a l ih =>
    refine seq (h a (by simp)) (fun _ => ih fun b hb => h b (by simp [hb])) ⟨?_, by omega, by omega⟩
    simp [Int.add_mul]
    omega

theorem add {op : Operation} {moves : List Move} (line : UInt32) (hop : op.isStraight = true)
    (he : op.effect v = .ok moves) (hm : net moves = n ∧ dip moves ≤ low) :
    Runs R n low (Emit.add v op line) := by
  intro s a t h
  obtain ⟨moves', he', -, rfl⟩ := add_ok.1 h
  obtain rfl : moves = moves' := by simpa [he] using he'
  refine Ledger.straight ⟨⟨[⟨line, op⟩], moves, by simp, ?_, rfl, hm⟩, rfl,
    ⟨rfl, rfl, fun _ => rfl⟩, fun _ hf => hf⟩
  simp only [Operation.isStraight, Bool.and_eq_true, Option.isNone_iff_eq_none, List.isEmpty_iff,
    Bool.not_eq_true'] at hop
  simpa using Traced.step hop.1.1 hop.1.2 hop.2 he .nil

theorem emit {op : Operation} {moves : List Move} (line : UInt32) (hop : op.isStraight = true)
    (he : op.effect v = .ok moves) (hm : net moves = n ∧ dip moves ≤ low) :
    Runs R n low (Emit.emit v op line) := discard (add line hop he hm)

end Runs

end

variable {α : Type} {n low : Int} {x : Emit α} {R : Int → Int → Session → Session → Prop}

/-- The action appends straight code. -/
abbrev Straight (v : Version) (ends : Prop) (n low : Int) (x : Emit α) : Prop :=
  Runs (Appends v ends) n low x

theorem Straight.runs [Ledger v ends R] (h : Straight v ends n low x) :
    Runs R n low x := fun _ _ _ hr => Ledger.straight (h hr)

theorem untracked_straight (line : UInt32) (state : RunState) :
    Straight v True 0 0 (emitUntracked (stateOperation v state) line) := by
  intro s a t h
  rw [emitUntracked_ok.1 h]
  exact ⟨⟨[⟨line, stateOperation v state⟩], [] ++ [], by simp, .stop trivial .nil, rfl, rfl,
    Int.le_refl _⟩, rfl, ⟨rfl, rfl, fun _ => rfl⟩, fun _ hf => hf⟩

theorem pop_straight : Straight v ends (-1) 1 (pop v) := by
  unfold pop
  split <;> exact .emit _ rfl rfl (by decide)

theorem assign_straight : Straight v ends (-1) 2 (assign v) := by
  unfold assign
  split <;> exact .emit _ rfl rfl (by decide)

theorem assignPop_straight : Straight v ends (-2) 2 (assignPop v) := by
  unfold assignPop
  split
  · exact .emit _ rfl rfl (by decide)
  · exact .seq assign_straight (fun _ => pop_straight) (by decide)

theorem assignAnd_straight (drops : Bool) :
    Straight v ends (if drops then -2 else -1) 2 (assignAnd v drops) := by
  unfold assignAnd
  split
  · exact assignPop_straight
  · exact assign_straight

theorem setExit_straight : Straight v True 0 0 (setState v .exit) := by
  refine .discard ?_
  intro s a t h
  obtain ⟨moves, he, -, rfl⟩ := add_ok.1 h
  obtain rfl : moves = [] := by
    unfold stateOperation at he
    split at he <;> exact (Except.ok.inj he).symm
  exact ⟨⟨[⟨0, stateOperation v .exit⟩], [] ++ [], by simp, .stop trivial .nil, rfl, rfl,
    Int.le_refl _⟩, rfl, ⟨rfl, rfl, fun _ => rfl⟩, fun _ hf => hf⟩

theorem handOff_straight (state : RunState) : Straight v True (-1) 1 (handOff v state) := by
  intro s a t h
  obtain ⟨_, r, h1, h2⟩ := bind_ok.1 h
  rw [emitUntracked_ok.1 h1] at h2
  obtain ⟨d, hd, rfl⟩ := onFrame_ok.1 h2
  simp only [dropDepth, Except.ok.injEq, Prod.mk.injEq, true_and] at hd
  subst hd
  refine ⟨⟨[⟨0, stateOperation v state⟩], [.pop 1], by simp, ?_, rfl, rfl, by decide⟩, rfl,
    ⟨rfl, rfl, fun _ => rfl⟩, fun _ hf => hf⟩
  simpa using Traced.stop trivial .nil

theorem bareReturn_straight : Straight v True 0 0 (bareReturn v) := untracked_straight _ _

theorem emptyReturn_straight : Straight v True 0 0 (emptyReturn v) := by
  unfold emptyReturn void
  split
  · rename_i hv
    rw [if_pos (show v.has .voidInsteadOfNop from hv)]
    exact .push (.emit _ rfl rfl (by decide)) fun _ => handOff_straight _
  · exact bareReturn_straight

theorem frameExit_straight : Straight v True 0 0 (frameExit v) := by
  refine .skip .frame fun f => ?_
  exact .ite (.neutral (.pure _)) emptyReturn_straight

theorem binaryAssign_straight (op : AssignOp) (loc : Loc) :
    Straight v ends (if v.has .binaryAssign then -1 else -2) (if v.has .binaryAssign then 2 else 3)
      (binaryAssign v op loc) := by
  unfold binaryAssign
  cases op.symbol? with
  | none => exact .reject
  | some text =>
    refine .skip (.operatorSymbol _ _) fun symbol => ?_
    split
    · exact .emit _ rfl rfl ⟨rfl, Int.le_refl _⟩
    · exact .seq (a := -1) (c := 2) (.emit _ rfl rfl ⟨rfl, Int.le_refl _⟩)
        (fun _ => assign_straight) (by decide)

theorem accessNames_neutral (symbol : Symbol) : Neutral (accessNames symbol) :=
  .bind .frame fun _ => .pure _

theorem access_straight (reach : Reach) (symbol : Symbol) (use : Access) (line : UInt32) :
    Straight v ends 1 0 (access v reach symbol use line) := by
  refine .skip (.onFrame (resolve_neutral _ _)) fun index => ?_
  refine .skip (accessNames_neutral _) fun names => ?_
  exact .emit _ rfl rfl (by decide)

theorem readName_straight (name : String) (loc : Loc) : Straight v ends 1 0 (readName v name loc) :=
  .skip (.symbol _) fun _ => access_straight _ _ _ _

theorem pushName_straight (name : String) (loc : Loc) (declares : Bool) :
    Straight v ends 1 0 (pushName v name loc declares) :=
  .skip (.symbol _) fun _ => access_straight _ _ _ _

theorem declareName_neutral (name : String) : Neutral (declareName name) :=
  .bind (.symbol _) fun _ => .discard (.onFrame (resolve_neutral _ _))

theorem readTemporary_straight (symbol : Symbol) (line : UInt32) :
    Straight v ends 1 0 (readTemporary v symbol line) := by
  refine .skip (.onFrame (localIndex_neutral _)) fun index => ?_
  exact .emit _ rfl rfl (by decide)

theorem member_straight (reach : Reach) (parts : List String) (loc : Loc) :
    Straight v ends 1 0 (member v reach parts loc) := by
  refine .skip (.splitPath _) fun names => ?_
  refine .skip (.onFrame (resolve_neutral _ _)) fun index => ?_
  exact .emit _ rfl rfl (by decide)

theorem gatedConstant_straight (c : Capability) (loc : Loc) (what : String) (value : Constant) :
    Straight v ends 1 0 (gatedConstant v c loc what value) :=
  .skip .require fun _ => .emit _ rfl rfl (by decide)

theorem text_straight (loc : Loc) (content : String) (hexEscaped : Bool) :
    Straight v ends 1 0 (text v loc content hexEscaped) := by
  unfold text
  split
  · exact .emit _ rfl rfl (by decide)
  · refine .skip (.stringSymbol _ _) fun symbol => ?_
    exact .emit _ rfl rfl ⟨rfl, Int.le_refl _⟩

theorem literal_straight (loc : Loc) (value : Literal) : Straight v ends 1 0 (literal v loc value) := by
  cases value
  case symbol name =>
    refine .skip (.symbol _) fun symbol => ?_
    exact .emit _ rfl rfl ⟨rfl, Int.le_refl _⟩
  case string content => exact text_straight _ _ _
  all_goals
    first
    | exact gatedConstant_straight _ _ _ _
    | exact .emit _ rfl rfl (by decide)

theorem identifier_straight (loc : Loc) (name : String) :
    Straight v ends 1 0 (identifier v loc name) := by
  unfold identifier
  split
  · exact .emit _ rfl rfl (by decide)
  · refine .skip .frame fun f => ?_
    split
    · refine .skip (.pure _) fun file => ?_
      exact .emit _ rfl rfl ⟨rfl, Int.le_refl _⟩
    · refine .skip (.stringSymbol _ _) fun file => ?_
      exact .emit _ rfl rfl ⟨rfl, Int.le_refl _⟩
  · exact readName_straight _ _

theorem attributeNames_neutral (property : Expr) : Neutral (attributeNames property) := by
  unfold attributeNames
  split
  · exact .bind (.symbol _) fun _ => .pure _
  · exact .pathSymbols _
  · exact .reject

theorem selfValue_straight (loc : Loc) : Straight v ends 1 0 (selfValue v loc) := by
  refine .skip .require fun _ => ?_
  refine .skip (.symbol _) fun symbol => ?_
  exact .emit _ rfl rfl (by decide)

theorem afterCall_straight (loc : Loc) : Straight v ends 0 0 (afterCall v loc) := by
  unfold afterCall
  split
  · exact .emit _ rfl rfl (by decide)
  · exact .neutral (.pure _)

theorem updateOperator_straight (loc : Loc) (op : UpdateOp) (before : Bool) :
    Straight v ends 0 1 (updateOperator v loc op before) := by
  refine .skip (.operatorSymbol _ _) fun symbol => ?_
  exact .emit _ rfl rfl ⟨rfl, Int.le_refl _⟩

theorem restElement_straight (loc : Loc) (argument : Expr) (declares isLast : Bool) :
    Straight v ends 1 0 (restElement v loc argument declares isLast) := by
  refine .skip .require fun _ => ?_
  refine .skip .require fun _ => ?_
  cases argument.ident? with
  | none => exact .reject
  | some name => exact .last (pushName_straight _ _ _) fun _ => .pure _

theorem addMember_neutral (symbol : Symbol) : Neutral (addMember symbol) :=
  .onFrame (Draft.addMember_neutral _)

theorem staticName_straight (loc : Loc) (name : String) (nameLoc : Loc) :
    Straight v ends 0 0 (staticName v loc name nameLoc) := by
  refine .skip (.symbol _) fun symbol => ?_
  refine .last (.emit _ rfl rfl ⟨rfl, Int.le_refl _⟩) fun _ => ?_
  exact .bind (.define _ _) fun _ => .bind .require fun _ => addMember_neutral _

theorem defineAttribute_straight (name : String) (loc : Loc) :
    Straight v ends (if v.has .attributeDefinePops then -1 else 0) 1 (defineAttribute v name loc) := by
  refine .skip (.symbol _) fun symbol => ?_
  refine .last ?_ fun _ => ?_
  · have he : (Operation.named .attributeDefine symbol).effect v =
        .ok (if v.has .attributeDefinePops then [.pop 1] else []) := rfl
    cases hv : v.has .attributeDefinePops <;> rw [hv] at he
    · exact .emit _ rfl he (by decide)
    · exact .emit _ rfl he (by decide)
  · exact .bind (.define _ _) fun _ => .bind .require fun _ => addMember_neutral _

theorem attributeName_straight (name : String) (nameLoc : Loc) :
    Straight v ends (if v.has .attributeDefinePops then 0 else 1) 0 (attributeName v name nameLoc) := by
  refine .seq (a := 1) (c := 0) (.emit _ rfl rfl (by decide))
    (fun _ => defineAttribute_straight _ _) ⟨?_, by decide, by decide⟩
  split <;> decide

theorem delegate_straight (loc : Loc) (id : Expr) : Straight v ends 0 0 (delegate v loc id) := by
  refine .skip .require fun _ => ?_
  cases id.ident? with
  | none => exact .reject
  | some name =>
    refine .skip (.symbol _) fun symbol => ?_
    refine .before (.emit _ rfl rfl ⟨rfl, Int.le_refl _⟩) fun _ => ?_
    refine .skip (.define _ _) fun _ => .skip .require fun _ => ?_
    exact .skip (addMember_neutral _) fun _ => .warn _

theorem specifierName_neutral (specifier : Expr) : Neutral (specifierName specifier) := by
  unfold specifierName
  split
  · exact .pure _
  · exact .reject

theorem importName_straight (loc : Loc) (specifiers : List Expr) (target : String)
    (asName : Option String) : Straight v ends 0 0 (importName v loc specifiers target asName) := by
  refine .skip .require fun _ => ?_
  refine .skip .require fun _ => ?_
  refine .skip (.mapM _ fun _ _ => specifierName_neutral _) fun parts => ?_
  refine .skip (.mapM _ fun _ _ => .symbol _) fun path => ?_
  refine .skip (.symbol _) fun full => ?_
  refine .skip (.symbol _) fun targetSymbol => ?_
  refine .skip (.symbol _) fun asSymbol => ?_
  refine .skip (.bind .get fun _ => .pure _) fun imported => ?_
  refine .skip (.onFrame (addStatics_neutral _)) fun _ => ?_
  exact .emit _ rfl rfl (by decide)

theorem baseClass_neutral (superClass : Option Expr) : Neutral (baseClass v superClass) := by
  unfold baseClass
  split
  · split
    · exact .reject
    · exact .ite (.pathSymbols _) (.bind (.symbol _) fun _ => .pure _)
  · exact .ite (.pathSymbols _) (.bind (.symbol _) fun _ => .pure _)

theorem enterModule_straight (name : String) : Straight v ends 0 0 (enterModule name) :=
  .change fun _ => ⟨.refl _, fun _ hf => hf⟩

theorem leaveModule_straight : Straight v ends 0 0 leaveModule :=
  .change fun _ => ⟨.refl _, fun _ hf => hf⟩

theorem openClass_straight (loc : Loc) (c : ClassCode) (name : String) (isStatic : Bool) :
    Straight v ends 0 0 (openClass v loc c name isStatic) := by
  unfold openClass
  split
  · refine .skip (.bind (.splitPath _) fun _ => .pure _) fun path => ?_
    exact .emit _ rfl rfl (by decide)
  · refine .skip (.symbol _) fun symbol => ?_
    refine .skip (baseClass_neutral _) fun bases => ?_
    exact .emit _ rfl rfl (by decide)

theorem declareParameter_neutral (name : String) (child : Draft) :
    Neutral (declareParameter name child) :=
  .bind (.symbol _) fun _ => .bind (.onDraft _ _) fun _ => .pure _

theorem nameParameter_straight (loc : Loc) (name : String) (child : Draft) :
    Straight v ends 1 0 (nameParameter v loc name child) := by
  refine .skip (declareParameter_neutral _ _) fun child => ?_
  exact .last (.emit _ rfl rfl (by decide)) fun _ => .pure _

theorem restParameter_straight (loc : Loc) (argument : Expr) (child : Draft) :
    Straight v ends 1 0 (restParameter v loc argument child) := by
  refine .skip .require fun _ => ?_
  cases argument.ident? with
  | none => exact .reject
  | some name =>
    refine .skip (declareParameter_neutral _ _) fun child => ?_
    exact .last (.emit _ rfl rfl (by decide)) fun _ => .pure _

theorem newChild_neutral (captures : Bool) : Neutral (newChild v captures) :=
  .bind .frame fun _ => .bind (.onDraft _ _) fun _ => .pure _

theorem blockBody_neutral (body : NodeCode) : Neutral (NodeCode.blockBody body) := by
  unfold NodeCode.blockBody
  split
  · split
    · exact .pure _
    · exact .reject
  · exact .reject

theorem yield_straight (loc : Loc) : Straight v True 0 0 (yield v loc) :=
  .push (.emit _ rfl rfl (by decide)) fun _ => handOff_straight _

theorem bindThrown_straight (name : String) (nameLoc : Loc) (line : UInt32) :
    Straight v ends 0 0 (bindThrown v name nameLoc line) := by
  refine .push (.emit _ rfl rfl (by decide)) fun _ => ?_
  refine .push (pushName_straight _ _ _) fun _ => ?_
  refine .seq (a := -1) (b := -1) (c := 1) (d := 1) (.emit _ rfl rfl (by decide))
    (fun _ => ?_) (by decide)
  refine .skip (.temporary _) fun temporary => ?_
  exact .push (pushName_straight _ _ _) fun _ => assignPop_straight

theorem ignoreThrown_straight (line : UInt32) : Straight v ends 0 0 (ignoreThrown v line) :=
  .push (.emit _ rfl rfl (by decide)) fun _ => .emit _ rfl rfl (by decide)

theorem catchParameter_straight (line : UInt32) (param : Option Expr) :
    Straight v ends 0 0 (catchParameter v line param) := by
  cases param with
  | none => exact ignoreThrown_straight _
  | some param =>
    simp only [catchParameter]
    cases param.ident? with
    | none => exact .reject
    | some name => exact bindThrown_straight _ _ _

theorem logException_straight : Straight v ends 0 0 (logException v) := by
  refine .push (member_straight _ _ _) fun _ => ?_
  refine .push (text_straight _ _ _) fun _ => ?_
  refine .push (text_straight _ _ _) fun _ => ?_
  refine .seq (a := -2) (b := -1) (c := 3) (d := 1) (.emit _ rfl rfl (by decide))
    (fun _ => ?_) (by decide)
  refine .after (afterCall_straight _) fun _ => ?_
  refine .before pop_straight fun _ => ?_
  exact .push (readName_straight _ _) fun _ => .emit _ rfl rfl (by decide)

theorem checkFinalizer_neutral (body : Expr) : Neutral (checkFinalizer body) := by
  unfold checkFinalizer
  split
  · exact .bind .require fun _ => .require
  · exact .require
  · exact .reject

theorem undef_straight (loc : Loc) (name : String) : Straight v ends 0 0 (undef v loc name) :=
  .skip (.pathSymbols _) fun _ => .emit _ rfl rfl (by decide)

theorem setSource_neutral (source : Option Symbol) : Neutral (setSource source) :=
  .change fun _ => ⟨⟨⟨rfl, rfl, rfl, rfl, rfl, fun _ => rfl⟩, fun _ hf => hf⟩, rfl, rfl⟩

theorem sourceFile_straight (path : String) : Straight v ends 0 0 (sourceFile v path) := by
  refine .skip (.plainSymbol _) fun symbol => ?_
  exact .last (.emit _ rfl rfl ⟨rfl, Int.le_refl _⟩) fun _ => setSource_neutral _

theorem markReturn_neutral : Neutral markReturn := by
  refine .change fun s => ?_
  split
  · exact ⟨⟨⟨rfl, rfl, rfl, rfl, rfl, fun _ => rfl⟩, fun _ hf => hf⟩, rfl, rfl⟩
  · exact .refl _

end Emit
end Adhoc
