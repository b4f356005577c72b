import Adhoc.Proofs.FollowStmt
import Adhoc.Proofs.LocalSlots
import Mathlib.Data.List.Induction

namespace Adhoc

open List Slots

variable {v : Version} {ds : List Deed} {known : Symbol → Prop} {i : Nat} {slots : Slots}
  {x : Symbol} {p : Part}

namespace Slots

variable {y : Symbol}

theorem foldl_freeLocal_none {xs : List Symbol} (hx : x ∈ xs)
    (hs : ∀ i j, slots.local? i = some x → slots.local? j = some x → i = j) (i : Nat) :
    (xs.foldl freeLocal slots).local? i ≠ some x := by
  induction xs generalizing slots with
  | nil => cases hx
  | cons y ys ih =>
    by_cases hy : y = x
    · subst hy
      intro h
      have hfreed : (slots.freeLocal y).local? i = some y := foldl_freeLocal_sub h
      have hlive := freeLocal_sub hfreed
      obtain ⟨k, hk⟩ := index_exists hlive
      rw [hs i k hlive hk.1, freeLocal_local?, if_pos (localIndex?_eq_some.2 hk)] at hfreed
      cases hfreed
    · exact ih ((mem_cons.1 hx).resolve_left (Ne.symm hy)) fun i j hi hj =>
        hs i j (freeLocal_sub hi) (freeLocal_sub hj)

end Slots

namespace Draft

variable {d e : Draft}

theorem captures_of_enclosing_none (h : d.enclosing = none) : d.captures x = false := by
  rw [captures, h]

theorem Change.new_local (h : d.Change known e ds) (he : d.enclosing = .none)
    (hx : e.slots.local? i = some x) : d.slots.local? i = some x ∨ x ∈ e.top.locals := by
  cases h with
  | none h => exact .inl (h ▸ hx)
  | addLocal _ _ h _ hb =>
    rw [h, addLocal_local?] at hx
    split at hx
    · rw [top_of_bare hb]
      exact .inr (Scope.mem_note.2 (.inr (Option.some.inj hx).symm))
    · exact .inl hx
  | addStatic _ _ h | addMember _ h =>
    rw [h, addStatic_local?] at hx
    exact .inl hx
  | addStatics h =>
    rw [h, foldl_view fun _ c => addStatic_local? c] at hx
    exact .inl hx
  | capture _ hc =>
    rw [captures_of_enclosing_none he] at hc
    cases hc

end Draft

namespace Course

variable {s r u t : Session}

/-- If every new local is noted in the scope at hand, closing the scope leaves the locals that were
there when it was opened. -/
theorem closed_local? {kind : ScopeKind} {leaves : Bool} (hv : v.has .freesOnLeave = true)
    (h : Course v ds (r.open kind) u) (hleave : Emit.leaveScope v leaves u = .ok ((), t))
    (hnew : ∀ i x, u.frame.slots.local? i = some x →
      r.frame.slots.local? i = some x ∨ x ∈ u.frame.top.locals) :
    t.frame.slots.local? = r.frame.slots.local? := by
  obtain ⟨c, hcloses, -, -⟩ := Emit.leaveScope_closes hleave
  obtain ⟨hextends, hnoted⟩ := h.locals
  rw [hcloses.top] at hnew hnoted
  rw [hcloses.slots, Draft.left, if_pos hv]
  have hfresh : ∀ x ∈ c.locals, r.frame.slots.localIndex? x = none := fun x hx =>
    (hnoted x hx).resolve_left fun h => by cases h
  funext i
  cases hr : r.frame.slots.local? i with
  | some x =>
    refine foldl_freeLocal_kept (fun hx => ?_) (hextends.kept i x hr)
    exact localIndex?_eq_none.1 (hfresh x hx) i hr
  | none =>
    refine Option.eq_none_iff_forall_ne_some.2 fun x hx => ?_
    have hmem : x ∈ c.locals :=
      (hnew i x (foldl_freeLocal_sub hx)).resolve_left fun h => by simp [hr] at h
    exact foldl_freeLocal_none hmem (fun i j => hextends.single i j x (hfresh x hmem)) i hx

/-- Where nothing is captured and no class is closed, every new local is noted in the scope at hand. -/
theorem new_local (hv : v.has .freesOnLeave = true) (h : Course v ds s t) (hd : .encloses ∉ ds)
    (he : s.frame.enclosing = none) (i : Nat) (x : Symbol)
    (hx : t.frame.slots.local? i = some x) :
    s.frame.slots.local? i = some x ∨ x ∈ t.frame.top.locals := by
  induction h generalizing i x with
  | nil => exact .inl hx
  | step hc hstep ih =>
    obtain ⟨_, _, -, hchange, -⟩ := hstep.act
    rcases hchange.new_local (hc.remains.enclosing.trans he) hx with hx | hx
    · exact (ih (fun h => hd (mem_append_left _ h)) he i x hx).imp id (hchange.notes.locals x)
    · exact .inr hx
  | @scope ds es s r u t kind leaves hc hin hleave ih ihin =>
    have hes : .encloses ∉ es := fun h => hd (mem_append_right _ (mem_filter.2 ⟨h, rfl⟩))
    have hclosed := hin.closed_local? hv hleave (ihin hes (hc.remains.enclosing.trans he))
    obtain ⟨c, hcloses, -, -⟩ := Emit.leaveScope_closes hleave
    rw [hclosed] at hx
    rw [Draft.top_congr (hin.closed hcloses)]
    exact ih (fun h => hd (mem_append_left _ h)) he i x hx
  | module => exact absurd (mem_append_right _ mem_cons_self) hd
  | @closure ds es fs s r u w x' y t child loc isMethod hc hdefaults _ _ _ _ hcourse hemit ih
      ihdefaults _ ihreads =>
    obtain ⟨depth, rfl⟩ := Emit.emit_ok hemit
    have hr : r.frame.enclosing = none := hc.remains.enclosing.trans he
    have hu : u.frame.enclosing = none := hdefaults.remains.enclosing.trans hr
    rcases ihreads (fun h => nomatch h) hu i x hx with hx | hx
    · refine Or.imp id (hcourse.notes.locals x) ?_
      rcases ihdefaults (fun h => hd (mem_append_right _ h)) hr i x hx with hx | hx
      · refine Or.imp id (hdefaults.notes.locals x) ?_
        exact ih (fun h => hd (mem_append_left _ h)) he i x hx
      · exact .inr hx
    · exact .inr hx
  | definition _ _ _ _ _ _ hemit ih =>
    obtain ⟨depth, rfl⟩ := Emit.emit_ok hemit
    exact ih hd he i x hx

end Course

namespace Slots

variable {α : Type}

section

theorem occupied_append (cells : List (Option α)) (c : Option α) :
    occupied (cells ++ [c]) = if c.isSome then cells.length + 1 else occupied cells := by
  cases c <;> simp [occupied]

theorem occupied_spec (cells : List (Option α)) :
    (∀ i a, cell cells i = some a → i < occupied cells) ∧
      (occupied cells = 0 ∨ ∃ a, cell cells (occupied cells - 1) = some a) := by
  induction cells using reverseRecOn with
  | nil => exact ⟨fun i a h => by simp [cell] at h, .inl rfl⟩
  | append_singleton cells c ih =>
    cases c with
    | none =>
      have hcell : ∀ i, cell (cells ++ [none]) i = cell cells i := by
        intro i
        rw [cell_append]
        split
        · rename_i h
          rw [h, cell_eq_none (le_rfl)]
        · rfl
      simpa [occupied_append, hcell] using ih
    | some b =>
      rw [occupied_append, Option.isSome_some, if_pos rfl]
      refine ⟨fun i a h => ?_, .inr ⟨b, by rw [Nat.add_sub_cancel, cell_append, if_pos rfl]⟩⟩
      by_contra hi
      rw [cell_eq_none (by simp; omega)] at h
      cases h

end

/-- One past the last slot that a local occupies, and 1 if none does. -/
def RewindsTo (slots : Slots) (n : Int) : Prop :=
  (∃ i x, slots.local? i = some x ∧ (∀ j y, slots.local? j = some y → j ≤ i) ∧ n = 1 + i) ∨
    (∀ j, slots.local? j = none) ∧ n = 1

theorem Reserves.rewindsTo (h : slots.Reserves) : slots.RewindsTo slots.rewindIndex := by
  obtain ⟨rest, statics, h⟩ := h
  have hlocal : slots.local? = cell (none :: rest) := by
    funext i
    rw [local?, h]
  have hindex : slots.rewindIndex = 1 + occupied rest := by rw [rewindIndex, h]; rfl
  rw [RewindsTo, hlocal, hindex]
  obtain ⟨hlast, hrest⟩ := occupied_spec rest
  have hbound : ∀ j y, cell (none :: rest) j = some y → j ≤ occupied rest := by
    intro j y hj
    cases j with
    | zero => exact Nat.zero_le _
    | succ j => exact hlast j y hj
  rcases hrest with hzero | ⟨a, ha⟩
  · refine .inr ⟨fun j => Option.eq_none_iff_forall_ne_some.2 fun y hj => ?_, by simp [hzero]⟩
    obtain rfl : j = 0 := by have := hbound j y hj; omega
    cases hj
  · refine .inl ⟨occupied rest, a, ?_, hbound, by simp⟩
    have hpos : occupied rest ≠ 0 := by
      have := hlast _ a ha
      omega
    rw [← Nat.sub_add_cancel (Nat.pos_of_ne_zero hpos)]
    exact ha

theorem RewindsTo.unique {slots' : Slots} {n n' : Int} (h : slots.RewindsTo n)
    (h' : slots'.RewindsTo n') (heq : slots.local? = slots'.local?) : n = n' := by
  unfold RewindsTo at h'
  rw [← heq] at h'
  rcases h with ⟨i, x, hi, hlast, rfl⟩ | ⟨hnone, rfl⟩ <;>
    rcases h' with ⟨j, y, hj, hlast', rfl⟩ | ⟨hnone', rfl⟩
  · have := hlast j y hj
    have := hlast' i x hi
    omega
  · simp [hnone'] at hi
  · simp [hnone] at hj
  · rfl

end Slots

namespace Draft

variable {modules : Prop} {d e : Draft} {enclosing : Option (List Symbol)} {isRoot : Bool}

theorem BuildStep.enclosing_eq (h : d.BuildStep v modules e) : e.enclosing = d.enclosing := by
  cases h with
  | step hremains => exact hremains.enclosing
  | parameter h =>
    obtain ⟨i, huse⟩ := addParameter_uses h
    exact (useLocal_slots huse).1.remains.enclosing
  | closeScope h | closeModule _ h => exact h.remains.enclosing
  | rest | reserve | openScope | leave | leaveModule | subroutine => rfl

theorem Leads.reserves (h : d.Leads v modules e) (hd : d.slots.Reserves) :
    e.slots.Reserves ∧ e.enclosing = d.enclosing := by
  refine ⟨(Leads.edits h).reserves hd, ?_⟩
  induction h with
  | refl => rfl
  | tail _ hbuild ih => exact hbuild.enclosing_eq.trans ih

theorem Fresh.enclosing_eq (h : d.Fresh v enclosing isRoot) : d.enclosing = enclosing := by
  obtain ⟨source, rfl⟩ := h
  rfl

theorem Fresh.reserves (hv : v.has .splitStorage = true) (h : d.Fresh v enclosing isRoot) :
    d.slots.Reserves := by
  obtain ⟨source, rfl⟩ := h
  exact empty_reserves hv

end Draft

theorem Draft.Leads.leave_rewinds {d e : Draft} {p : Nat} {line : UInt32} {modules rewind : Int}
    (h : d.Leads v False e) (hd : d.Noted) (hp : d.code.size ≤ p)
    (hget : e.code[p]? = some ⟨line, .leave modules rewind⟩) :
    modules = 0 ∧ ∃ f, d.Leads v False f ∧ e.moments[p]? = some f.slots ∧
      rewind = f.slots.rewindIndex := by
  obtain ⟨f, f', hbefore, hbuild, hafter, hsize, hsize'⟩ :=
    Draft.written_of_turns (fun _ _ h => h.goesOn.2) h hp (Array.getElem?_eq_some_iff.1 hget).1
  have hwritten : f'.code[p]? = some ⟨line, .leave modules rewind⟩ :=
    ((Draft.Leads.goesOn hafter).same p _ (by omega) rfl).1 hget
  have hpushed : ∀ {ins}, f'.code = f.code.push ins → ins = ⟨line, .leave modules rewind⟩ := by
    intro ins hcode
    rw [hcode, ← hsize, Array.getElem?_push_size] at hwritten
    exact Option.some.inj hwritten
  have hmoment : e.moments[p]? = some f'.slots := by
    refine Draft.Leads.moments hafter ?_
    rw [← hsize]
    exact hbuild.records.moment (Draft.Leads.noted hbefore hd) (by omega)
  cases hbuild with
  | step _ _ hwrites =>
    cases hwrites with
    | none h => simp [h] at hsize'; omega
    | patch h he =>
      have := (patch_goesOn h).2
      rw [he] at hsize'
      omega
    | plain hplain h =>
      cases hpushed h
      cases hplain
    | captured _ _ _ h | «local» _ _ h | static _ _ _ h | own _ h | self _ h => cases hpushed h
  | parameter h => rw [addParameter_code h] at hsize'; omega
  | rest | reserve | openScope => simp at hsize'; omega
  | closeScope _ h | closeModule _ _ h => rw [h] at hsize'; omega
  | leave =>
    cases hpushed rfl
    exact ⟨rfl, f, hbefore, hmoment, rfl⟩
  | leaveModule _ _ _ h => exact h.elim
  | subroutine => cases hpushed rfl

/-- The part neither includes a file nor declares a class or module, the bodies of functions
aside. -/
def Part.IsPlain (lib : Library) (v : Version) (p : Part) : Prop :=
  ∀ q, Occurs lib v False p q → q.isClass = false ∧ q.isInclusion = false

theorem Contributes.occurs_of_encloses {lib lib' : Library} {logs : Bool} {via : Prop}
    (h : Contributes lib v logs via p .encloses) :
    ∃ q, Occurs lib' v False p q ∧ (q.isClass = true ∨ q.isInclusion = true) := by
  generalize hd : Deed.encloses = d at h
  induction h with
  | takes | member => cases hd
  | part _ _ hq _ ih =>
    obtain ⟨q, ho, hc⟩ := ih hd
    exact ⟨q, .part hq ho, hc⟩
  | encloses hc | closed hc => exact ⟨_, .here _, .inl hc⟩
  | included => exact ⟨_, .here _, .inr rfl⟩

theorem Emit.leaveScope_rewinds {u w : Session} (hv : 11 ≤ v.number) (hu : u.frame.slots.Reserves)
    (h : leaveScope v true u = .ok ((), w)) :
    ∃ rewind, w.frame.code = u.frame.code.push ⟨0, .leave 0 rewind⟩ ∧
      w.frame.slots.RewindsTo rewind := by
  obtain ⟨c, -, hcode, -⟩ := leaveScope_closes h
  have hleads : u.frame.Leads v False w.frame := leaveScope_leads h
  rw [Version.has_of_eleven hv rfl, Bool.and_self, if_pos rfl] at hcode
  exact ⟨w.frame.slots.rewindIndex, hcode, (hleads.reserves hu).1.rewindsTo⟩

theorem Draft.map_kind_bare (d : Draft) : d.bare.map Scope.kind = d.scopes.map Scope.kind := by
  simp [Draft.bare, Scope.bare, Function.comp_def]

/-- A statement with a scope of its own leaves the open scopes and the slots of all locals as they
were. Every `LEAVE` that it writes leaves no module and rewinds to the locals that there are at that
moment, and the one that closes it to the locals that there were before it. The same holds wherever a
scope is left: the locals that are left are those to which its `LEAVE` rewinds. -/
theorem scoped_run_symmetric {o : Options} {sources : Sources} {depth : Nat} {stmt : Stmt}
    {d : Draft} {isRoot : Bool} {s t : Session} (hv : 11 ≤ o.version.number)
    (hfresh : d.Fresh o.version none isRoot) (hbegun : d.Leads o.version True s.frame)
    (hscoped : stmt.isScoped = true) (hplain : (Part.stmt stmt).IsPlain (o.library sources) o.version)
    (h : (stmt.code (o.context sources depth)).run s = .ok ((), t)) :
    t.frame.scopes.map Scope.kind = s.frame.scopes.map Scope.kind ∧
    (∀ x, t.frame.slots.localIndex? x = s.frame.slots.localIndex? x) ∧
    (∀ p line modules rewind, s.frame.code.size ≤ p →
      t.frame.code[p]? = some ⟨line, .leave modules rewind⟩ →
      modules = 0 ∧ ∃ slots, t.frame.moments[p]? = some slots ∧ slots.RewindsTo rewind) ∧
    (stmt.leaves = true →
      t.frame.code.back? = some ⟨0, .leave 0 s.frame.slots.rewindIndex⟩) ∧
    ∀ u w, u.frame.slots.Reserves → Emit.leaveScope o.version true u = .ok ((), w) →
      ∃ rewind, w.frame.code = u.frame.code.push ⟨0, .leave 0 rewind⟩ ∧
        w.frame.slots.RewindsTo rewind := by
  have hfrees : o.version.has .freesOnLeave = true := Version.has_of_eleven hv rfl
  obtain ⟨hreserves, henclosing⟩ := hbegun.reserves (hfresh.reserves (Version.has_of_eleven hv rfl))
  obtain ⟨kind, ds, u, hin, hleave, hencloses⟩ :=
    stmt.follows_scope o sources depth none hscoped (fun _ hf => nomatch hf) h
  -- No class is closed inside the statement.
  have hds : .encloses ∉ ds := by
    intro hd
    obtain ⟨q, ho, hq⟩ := Contributes.occurs_of_encloses (hencloses hd)
    have := hplain q ho
    simp [this] at hq
  have hcourse := (Course.nil s).scope hin hleave
  have hleads : s.frame.Leads o.version False t.frame :=
    hcourse.leads.mono fun h => hds (List.mem_filter.1 h).1
  obtain ⟨c, hcloses, hcode, -⟩ := Emit.leaveScope_closes hleave
  have hnew := hin.new_local hfrees hds (henclosing.trans hfresh.enclosing_eq)
  have hlocals := hin.closed_local? hfrees hleave hnew
  have hreserves' := (hleads.reserves hreserves).1
  refine ⟨?_, fun x => Slots.localIndex?_congr hlocals, fun p line modules rewind hp hget => ?_,
    fun hleaves => ?_, fun u w => Emit.leaveScope_rewinds hv⟩
  · rw [← Draft.map_kind_bare, hin.closed hcloses, Draft.map_kind_bare]
  · have hnoted := Draft.Leads.noted hbegun hfresh.noted
    obtain ⟨hzero, e, hbefore, hmoment, rfl⟩ := hleads.leave_rewinds hnoted hp hget
    exact ⟨hzero, e.slots, hmoment, (hbefore.reserves hreserves).1.rewindsTo⟩
  · rw [hcode, hleaves, Version.has_of_eleven hv rfl, Bool.and_self, if_pos rfl, Array.back?_push,
      hreserves'.rewindsTo.unique hreserves.rewindsTo hlocals]

/-- Whether the part is plain, checked down to the given depth of nesting. -/
def Part.checkPlain (v : Version) : Nat → Part → Bool
  | 0, _ => false
  | n + 1, p => !p.isClass && !p.isInclusion && (p.parts v).all (checkPlain v n)

theorem Part.IsPlain.of_check {lib : Library} {n : Nat} (h : p.checkPlain v n = true) :
    p.IsPlain lib v := by
  induction n generalizing p with
  | zero => cases h
  | succ n ih =>
    simp only [Part.checkPlain, Bool.and_eq_true, Bool.not_eq_true', all_eq_true] at h
    obtain ⟨⟨hclass, hinclusion⟩, hparts⟩ := h
    intro q ho
    cases ho with
    | here => exact ⟨hclass, hinclusion⟩
    | part hq ho => exact ih (hparts _ hq) q ho
    | body h => exact h.elim
    | included => cases hinclusion

/-- A loop with a label around a switch, with locals in both. -/
def labeledLoop : Stmt :=
  .labeled {} "outer" (.whileLoop {} (.literal {} (.bool true)) (.block {} [
    .declare {} [⟨{}, some (.ident {} "x"), some (.literal {} (.int 1))⟩],
    .switch {} (.ident {} "x") [
      ⟨{}, some (.literal {} (.int 2)), [
        .declare {} [⟨{}, some (.ident {} "y"), some (.ident {} "x")⟩],
        .continueLoop {} (some "outer")]⟩]]))

theorem labeledLoop_symmetric :
    (Part.stmt labeledLoop).IsPlain (Options.library {} noSources) .latestCommon ∧
    ∃ t, (labeledLoop.code (Options.context {} noSources 0)).run (Session.start {} "main") =
        .ok ((), t) ∧
      t.frame.scopes.map Scope.kind = [] ∧
      (∀ x, t.frame.slots.localIndex? x = none) ∧
      (∀ p line modules rewind, 0 ≤ p → t.frame.code[p]? = some ⟨line, .leave modules rewind⟩ →
        modules = 0 ∧ ∃ slots, t.frame.moments[p]? = some slots ∧ slots.RewindsTo rewind) ∧
      t.frame.code.back? = some ⟨0, .leave 0 1⟩ := by
  have hplain : (Part.stmt labeledLoop).IsPlain (Options.library {} noSources) .latestCommon :=
    .of_check (n := 8) (by decide)
  refine ⟨hplain, ?_⟩
  have hok : ((labeledLoop.code (Options.context {} noSources 0)).run
      (Session.start {} "main")).isOk = true := by decide +kernel
  obtain ⟨⟨⟨⟩, t⟩, h⟩ := exists_ok hok
  have hfresh : (Session.start {} "main").frame.Fresh .latestCommon none true := ⟨_, rfl⟩
  obtain ⟨hkinds, hlocals, hleaves, hlast, -⟩ :=
    scoped_run_symmetric (o := {}) (by decide) hfresh .refl rfl hplain h
  exact ⟨t, h, hkinds, hlocals, hleaves, hlast rfl⟩

end Adhoc
