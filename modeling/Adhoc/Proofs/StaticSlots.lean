import Adhoc.Proofs.FollowStmt
import Adhoc.Proofs.History
import Mathlib

namespace Adhoc

open Emit List Slots Draft

variable {name : String} {ds : List Deed} {i : Nat} {x : Symbol}

namespace Slots

variable {a b c slots : Slots} {y : Symbol} {xs : List Symbol}

/-- The slot of the next static. -/
def staticEnd (slots : Slots) : Nat := (slots.addStatic none).1

theorem addStatic_fst (c : Option Symbol) : (slots.addStatic c).1 = slots.staticEnd := by
  rcases slots with ⟨⟨locals, statics⟩ | cells, _⟩ <;> rfl

theorem staticEnd_eq : slots.staticEnd = slots.tableSize .static := by
  rw [tableSize_eq]
  rcases slots with ⟨⟨locals, statics⟩ | cells, _⟩ <;> rfl

theorem static?_lt (h : slots.static? i = some x) : i < slots.staticEnd :=
  staticEnd_eq ▸ holds_lt (k := .static) h

/-- The statics that were there can only go, and new ones come behind them. -/
structure StableStatics (a b : Slots) : Prop where
  grows : a.staticEnd ≤ b.staticEnd
  old : ∀ i < a.staticEnd, ∀ x, b.static? i = some x → a.static? i = some x

namespace StableStatics

theorem refl (slots : Slots) : slots.StableStatics slots := ⟨le_rfl, fun _ _ _ h => h⟩

theorem trans (h : a.StableStatics b) (h' : b.StableStatics c) : a.StableStatics c :=
  ⟨Nat.le_trans h.grows h'.grows, fun i hi x hx =>
    h.old i hi x (h'.old i (Nat.lt_of_lt_of_le hi h.grows) x hx)⟩

theorem add (slots : Slots) (k : SlotKind) (c : Option Symbol) : slots.StableStatics (slots.add k c).2 where
  grows := by
    rw [staticEnd_eq, staticEnd_eq]
    exact tableSize_le_add
  old i hi x h := by
    cases k
    · rwa [Slots.add, addLocal_static?] at h
    · rwa [Slots.add, addStatic_static?, addStatic_fst, if_neg (Nat.ne_of_lt hi)] at h

theorem free (slots : Slots) (k : SlotKind) (x : Symbol) : slots.StableStatics (slots.free k x) where
  grows := by rw [staticEnd_eq, staticEnd_eq, tableSize_free]
  old i _ y h := by
    have hi := @free_holds slots k .static x i
    split at hi
    · exact absurd (h.symm.trans hi) (by simp)
    · exact hi.symm.trans h

theorem of_edits {frees : Prop} (h : a.Edits frees b) : a.StableStatics b :=
  h.induction (refl a) (fun _ k c h => h.trans (add _ k c)) fun _ _ k x h => h.trans (free _ k x)

theorem staticIndex?_eq (h : a.StableStatics b) (ha : a.staticIndex? x = some i)
    (hb : b.static? i = some x) : b.staticIndex? x = some i := by
  obtain ⟨hx, hfirst⟩ := staticIndex?_eq_some.1 ha
  refine staticIndex?_eq_some.2 ⟨hb, fun j hj hb => hfirst j hj ?_⟩
  exact h.old j (Nat.lt_trans hj (static?_lt hx)) x hb

theorem lt_staticIndex? {j : Nat} (h : a.StableStatics b) (ha : a.staticIndex? x = some i)
    (hb : b.static? i ≠ some x) (hj : b.staticIndex? x = some j) : i < j := by
  obtain ⟨hx, hfirst⟩ := staticIndex?_eq_some.1 ha
  have hget := (staticIndex?_eq_some.1 hj).1
  rcases Nat.lt_trichotomy i j with hlt | rfl | hlt
  · exact hlt
  · exact absurd hget hb
  · exact absurd (h.old j (Nat.lt_trans hlt (static?_lt hx)) x hget) (hfirst j hlt)

end StableStatics

theorem left_freeLocal_static? (v : Version) (xs : List Symbol) :
    (left v freeLocal xs slots).static? = slots.static? := by
  unfold left
  split
  · exact foldl_view (fun _ _ => freeLocal_static?) xs
  · rfl

theorem freeStatic_static?_of_ne (hne : y ≠ x) (h : slots.static? i = some x) :
    (slots.freeStatic y).static? i = some x := by
  rw [freeStatic_static?, if_neg, h]
  intro hy
  exact hne (Option.some.inj ((staticIndex?_eq_some.1 hy).1.symm.trans h))

theorem foldl_freeStatic_kept (hx : x ∉ xs) (h : slots.static? i = some x) :
    (xs.foldl freeStatic slots).static? i = some x := by
  induction xs generalizing slots with
  | nil => exact h
  | cons y ys ih =>
    simp only [mem_cons, not_or] at hx
    exact ih hx.2 (freeStatic_static?_of_ne (Ne.symm hx.1) h)

theorem foldl_freeStatic_lost (hx : x ∈ xs) (h : slots.staticIndex? x = some i) :
    (xs.foldl freeStatic slots).static? i ≠ some x := by
  induction xs generalizing slots with
  | nil => cases hx
  | cons y ys ih =>
    have hlt := static?_lt (staticIndex?_eq_some.1 h).1
    by_cases hy : y = x
    · subst hy
      intro hlast
      have hstable : (slots.freeStatic y).StableStatics (ys.foldl freeStatic (slots.freeStatic y)) :=
        .of_edits (show Edits True _ _ from
          ⟨_, (run_map _ (.free .static) ys).symm, fun _ _ _ => trivial⟩)
      have := hstable.old i (Nat.lt_of_lt_of_le hlt (StableStatics.free _ .static _).grows) y hlast
      rw [freeStatic_static?, if_pos h] at this
      cases this
    · have hkept := freeStatic_static?_of_ne hy (staticIndex?_eq_some.1 h).1
      exact ih ((mem_cons.1 hx).resolve_left (Ne.symm hy))
        ((StableStatics.free _ .static _).staticIndex?_eq h hkept)

end Slots

namespace Draft

variable {known : Symbol → Prop} {d e : Draft}

theorem Change.static? (h : d.Change known e ds) (hx : d.slots.static? i = some x) :
    e.slots.static? i = some x := by
  have hadd : ∀ (slots : Slots) c, slots.static? i = some x →
      (slots.addStatic c).2.static? i = some x := by
    intro slots c hx
    rw [addStatic_static?, addStatic_fst, if_neg (Nat.ne_of_lt (static?_lt hx)), hx]
  cases h with
  | none h => rw [h, hx]
  | addLocal _ _ h | capture _ _ _ h => rw [h, addLocal_static?, hx]
  | addStatic _ _ h | addMember _ h => exact h ▸ hadd _ _ hx
  | addStatics h =>
    rw [h]
    clear h
    generalize d.slots = slots at hx
    rename_i xs _ _
    induction xs generalizing slots with
    | nil => exact hx
    | cons c cs ih => exact ih _ (hadd _ _ hx)

theorem Change.noted_of_defines (h : d.Change known e ds) (hd : .defines name ∈ ds) :
    ∃ x ∈ e.top.statics, known x ∧ x.name = name := by
  cases h with
  | none | addStatic | addStatics | capture => cases hd
  | addLocal => cases mem_singleton.1 hd
  | @addMember x c rest hx _ _ he =>
    cases mem_singleton.1 hd
    refine ⟨x, ?_, hx, rfl⟩
    rw [top_of_bare he]
    exact Scope.mem_note.2 (.inr rfl)

/-- The name gets a static slot and is noted in the innermost scope, as it has no such slot yet. -/
structure FirstUses (x : Symbol) (d e : Draft) : Prop where
  vacant : d.slots.staticIndex? x = none
  slots : e.slots = (d.slots.addStatic (some x)).2
  scopes : ∃ c rest, d.bare = c :: rest ∧ e.bare = c.addStatic x :: rest

/-- What is noted in a step is defined there, or used for the first time. -/
theorem Change.noted (h : d.Change known e ds) (hx : x ∈ e.top.statics) :
    x ∈ d.top.statics ∨ .defines x.name ∈ ds ∨ d.FirstUses x e := by
  cases h with
  | none _ h | addStatics _ h | capture _ _ _ _ h => exact .inl (top_congr h ▸ hx)
  | addLocal _ _ _ hd he =>
    rw [top_of_bare he] at hx
    rw [top_of_bare hd]
    exact .inl hx
  | addStatic _ hnone hslots hd he =>
    rw [top_of_bare he] at hx
    rw [top_of_bare hd]
    refine (Scope.mem_note.1 hx).imp id ?_
    rintro rfl
    exact .inr ⟨hnone, hslots, _, _, hd, he⟩
  | addMember _ _ hd he =>
    rw [top_of_bare he] at hx
    rw [top_of_bare hd]
    refine (Scope.mem_note.1 hx).imp id ?_
    rintro rfl
    exact .inl (mem_singleton.2 rfl)

theorem Change.not_clears (h : d.Change known e ds) : .clears name ∉ ds := by
  cases h <;> simp

theorem Writes.isOwn (h : d.Writes e ds) : ∀ d ∈ ds, d.isOwn = true := by
  cases h <;> simp [Deed.isOwn]

end Draft

theorem Step.not_clears {s t : Session} (h : Step ds s t) : .clears name ∉ ds := by
  obtain ⟨es, fs, rfl, hchange, hwrites⟩ := h.act
  intro hd
  rcases mem_append.1 hd with hd | hd
  · exact hchange.not_clears hd
  · cases hwrites.isOwn _ hd

namespace Course

variable {v : Version} {es : List Deed} {s r u t : Session}

theorem stableStatics (h : Course v ds s t) : s.frame.slots.StableStatics t.frame.slots :=
  .of_edits h.leads.edits

theorem noted_of_defines (h : Course v ds s t) (hd : .defines name ∈ ds) :
    ∃ x ∈ t.frame.top.statics, t.symbols.Knows x ∧ x.name = name := by
  have hlater : ∀ {fs : List Deed} {r t : Session}, Course v fs r t →
      (∃ x ∈ r.frame.top.statics, r.symbols.Knows x ∧ x.name = name) →
      ∃ x ∈ t.frame.top.statics, t.symbols.Knows x ∧ x.name = name :=
    fun hc ⟨x, hx, hk, hn⟩ => ⟨x, hc.notes.statics x hx, hk.mono hc.widens.symbols, hn⟩
  induction h with
  | nil => cases hd
  | @step _ _ _ r _ _ hstep ih =>
    rcases mem_append.1 hd with hd | hd
    · exact hlater (.of_step hstep) (ih hd)
    · obtain ⟨es, fs, rfl, hchange, hwrites⟩ := hstep.act
      rcases mem_append.1 hd with hd | hd
      · exact hchange.noted_of_defines hd
      · cases hwrites.isOwn _ hd
  | @scope _ _ _ r _ _ _ _ _ hin hleave ih =>
    rcases mem_append.1 hd with hd | hd
    · exact hlater ((nil r).scope hin hleave) (ih hd)
    · cases (mem_filter.1 hd).2
  | @module _ _ _ r _ _ _ hin hleave ih =>
    rcases mem_append.1 hd with hd | hd
    · exact hlater ((nil r).module hin hleave) (ih hd)
    · obtain ⟨d, -, hd⟩ := mem_map.1 ((mem_cons.1 hd).resolve_left (by simp))
      cases d <;> cases hd
  | @closure _ _ _ _ r u w x y _ _ _ _ _ hdefaults hchild hbody hleave hreads hcourse hemit ih
      ihdefaults =>
    rcases mem_append.1 hd with hd | hd
    · exact hlater ((nil r).closure hdefaults hchild hbody hleave hreads hcourse hemit) (ih hd)
    · obtain ⟨z, hz, hk, hn⟩ := ihdefaults hd
      obtain ⟨depth, rfl⟩ := emit_ok hemit
      obtain ⟨c, -, -, hat⟩ := leaveScope_closes hleave
      refine ⟨z, hcourse.notes.statics z hz, ?_, hn⟩
      have hbody := hbody.widens.symbols
      have hcourse := hcourse.widens.symbols
      rw [hat] at hcourse
      exact hk.mono (hbody.trans hcourse)
  | @definition _ _ _ _ r _ _ _ _ _ _ _ _ _ hchild hbody hleave hexit hcourse hemit ih =>
    exact hlater ((nil r).definition hchild hbody hleave hexit hcourse hemit) (ih hd)

/-- A static keeps its index if no closed class or module defines a member of its name. It is noted
in the scope at hand only where it is defined again. -/
theorem static_kept (h : Course v ds s t) (hx : s.frame.slots.staticIndex? x = some i)
    (hn : .clears x.name ∉ ds) : t.frame.slots.staticIndex? x = some i ∧
      (x ∈ t.frame.top.statics → x ∈ s.frame.top.statics ∨ .defines x.name ∈ ds) := by
  refine h.fold (P := fun ds d e => d.slots.staticIndex? x = some i → .clears x.name ∉ ds →
      e.slots.staticIndex? x = some i ∧
        (x ∈ e.top.statics → x ∈ d.top.statics ∨ .defines x.name ∈ ds))
    (fun _ hx _ => ⟨hx, .inl⟩) (fun h h' hx hn => ?_) (fun hstep hx _ => ?_)
    (fun hin hleave ih hx hn => ?_) (fun {es _ _ _} hin hleave ih hx hn => ?_)
    (fun _ _ _ _ _ _ hx _ => ⟨hx, .inl⟩) hx hn
  · rw [mem_append, not_or] at hn
    obtain ⟨hr, hnoted⟩ := h hx hn.1
    obtain ⟨ht, hnoted'⟩ := h' hr hn.2
    refine ⟨ht, fun hx => ?_⟩
    rcases hnoted' hx with hx | hx
    · exact (hnoted hx).imp_right (mem_append_left _)
    · exact .inr (mem_append_right _ hx)
  · obtain ⟨_, _, rfl, hchange, -⟩ := hstep.act
    have hget := hchange.static? (staticIndex?_eq_some.1 hx).1
    have hstable := (of_step (v := v) hstep).stableStatics
    refine ⟨hstable.staticIndex?_eq hx hget, fun hnoted => (hchange.noted hnoted).imp_right ?_⟩
    rintro (hd | hfirst)
    · exact mem_append_left _ hd
    · exact absurd hfirst.vacant (by simp [hx])
  · obtain ⟨hu, -⟩ := ih hx fun h => hn (mem_filter.2 ⟨h, rfl⟩)
    obtain ⟨c, hcloses, -, -⟩ := leaveScope_closes hleave
    refine ⟨?_, fun hx => .inl (top_congr (hin.closed hcloses) ▸ hx)⟩
    rw [hcloses.slots]
    refine StableStatics.staticIndex?_eq (.of_edits (left_edits .local _ _)) hu ?_
    rw [left_freeLocal_static?]
    exact (staticIndex?_eq_some.1 hu).1
  · have hes : ∀ d : Deed, d ∈ es → d.closed ≠ .clears x.name := fun d hd hclosed => hn
      (mem_cons_of_mem _ (mem_map.2 ⟨d, hd, hclosed⟩))
    obtain ⟨hu, hnoted⟩ := ih hx fun h => hes _ h rfl
    obtain ⟨c, hcloses, -, -⟩ := leaveModuleScope_closes hleave
    refine ⟨?_, fun hx => .inl (top_congr (hin.closed hcloses) ▸ hx)⟩
    rw [hcloses.slots]
    refine StableStatics.staticIndex?_eq (.of_edits (left_edits .static _ _)) hu ?_
    have hfirst := (staticIndex?_eq_some.1 hu).1
    have hfree : x ∉ c.statics := by
      intro hc
      rw [hcloses.top] at hnoted
      exact (hnoted hc).elim (fun h => nomatch h) fun h => hes _ h rfl
    unfold left
    split
    · exact foldl_freeStatic_kept hfree hfirst
    · exact hfirst

theorem static_lost (hv : v.has .freesOnLeave = true) (h : Course v ds s t)
    (hx : s.frame.slots.staticIndex? x = some i) (hfound : s.symbols.find? x.name = some x)
    (hd : .clears x.name ∈ ds) : t.frame.slots.static? i ≠ some x := by
  -- A slot that was lost is not filled again.
  have hlater : ∀ {fs : List Deed} {r t : Session}, Course v fs r t → i < r.frame.slots.staticEnd →
      r.frame.slots.static? i ≠ some x → t.frame.slots.static? i ≠ some x :=
    fun hc hi hr ht => hr (hc.stableStatics.old i hi x ht)
  have hend : ∀ {fs : List Deed} {r t : Session}, Course v fs r t →
      r.frame.slots.staticIndex? x = some i → i < t.frame.slots.staticEnd :=
    fun hc hr => Nat.lt_of_lt_of_le (static?_lt (staticIndex?_eq_some.1 hr).1) hc.stableStatics.grows
  induction h with
  | nil => cases hd
  | step hc hstep ih =>
    refine hlater (.of_step hstep) (hend hc hx) (ih hx hfound ?_)
    exact (mem_append.1 hd).resolve_right hstep.not_clears
  | @scope ds es s r u t kind leaves hc hin hleave ih ihin =>
    by_cases hds : .clears x.name ∈ ds
    · exact hlater ((nil r).scope hin hleave) (hend hc hx) (ih hx hfound hds)
    · have hes := (mem_filter.1 ((mem_append.1 hd).resolve_left hds)).1
      have hu := ihin (hc.static_kept hx hds).1 (hc.widens.symbols hfound) hes
      obtain ⟨c, hcloses, -, -⟩ := leaveScope_closes hleave
      rwa [hcloses.slots, left_freeLocal_static?]
  | @module ds es s r u t hc hin hleave ih ihin =>
    by_cases hds : .clears x.name ∈ ds
    · exact hlater ((nil r).module hin hleave) (hend hc hx) (ih hx hfound hds)
    have hr := (hc.static_kept hx hds).1
    have hfound' := hc.widens.symbols hfound
    obtain ⟨c, hcloses, -, -⟩ := leaveModuleScope_closes hleave
    rw [hcloses.slots]
    by_cases hu : u.frame.slots.static? i = some x
    · -- The slot is still there when the scope is closed, so the name is a member of it.
      have hes : .clears x.name ∉ es := fun h => ihin hr hfound' h hu
      obtain ⟨d, hmem, hclosed⟩ := mem_map.1
        ((mem_cons.1 ((mem_append.1 hd).resolve_left hds)).resolve_left (by simp))
      have hdefines : .defines x.name ∈ es := by
        cases d <;> cases hclosed
        · exact hmem
        · exact absurd hmem hes
      obtain ⟨y, hy, hknown, hname⟩ := hin.noted_of_defines hdefines
      obtain rfl : y = x := by
        have hfound := hin.widens.symbols hfound'
        rw [← hname, hknown.found] at hfound
        exact Option.some.inj hfound
      rw [hcloses.top] at hy
      rw [left, if_pos hv]
      exact foldl_freeStatic_lost hy (hin.stableStatics.staticIndex?_eq hr hu)
    · exact fun ht => hu ((StableStatics.of_edits (left_edits .static _ _)).old i (hend hin hr) x ht)
  | @closure ds es fs s r u w y z t _ _ _ hc hdefaults hchild hbody hleave hreads hcourse hemit ih
      ihdefaults =>
    by_cases hds : .clears x.name ∈ ds
    · exact hlater ((nil r).closure hdefaults hchild hbody hleave hreads hcourse hemit) (hend hc hx)
        (ih hx hfound hds)
    · have hr := (hc.static_kept hx hds).1
      have hu := ihdefaults hr (hc.widens.symbols hfound) ((mem_append.1 hd).resolve_left hds)
      obtain ⟨depth, rfl⟩ := emit_ok hemit
      have hlt := hend hdefaults hr
      exact fun ht => hu (hcourse.stableStatics.old i hlt x ht)
  | definition hc _ _ _ _ _ hemit ih =>
    obtain ⟨depth, rfl⟩ := emit_ok hemit
    exact ih hx hfound hd

end Course

/-- A static of the frame around a class or module has the same index after it, unless the class, or
one inside it, defines a member of that name. Then its slot is freed, and the name has no static slot
or a later one. -/
theorem classDef_static_stable_iff {o : Options} {sources : Sources} {depth : Nat} {loc : Loc}
    {d : ClassDef} {isStatic : Bool} {s t : Session} {x : Symbol} {i : Nat}
    (hv : 11 ≤ o.version.number)
    (h : Emit.classDef o.version loc (d.code (o.context sources depth)) isStatic s = .ok ((), t))
    (hx : s.frame.slots.staticIndex? x = some i) :
    (¬ Contributes ⟨sources, s.includeFolder, o.projectFolder⟩ o.version o.logsExceptions True
        (.stmt (.classDef loc d)) (.clears x.name) → t.frame.slots.staticIndex? x = some i) ∧
    (s.symbols.find? x.name = some x →
      Contributes ⟨sources, s.includeFolder, o.projectFolder⟩ o.version o.logsExceptions
        (s.includeFolder.isSome = true) (.stmt (.classDef loc d)) (.clears x.name) →
      ∀ j, t.frame.slots.staticIndex? x = some j → i < j) := by
  obtain ⟨ds, hc, hb⟩ := ClassDef.follows o sources depth s.includeFolder d loc isStatic
    (fun _ hf => hf) h
  constructor
  · intro hn
    exact (hc.static_kept hx fun hd => hn (hb.may _ hd)).1
  · intro hfound hd j hj
    have hlost := hc.static_lost (Version.has_of_eleven hv rfl) hx hfound (hb.must _ ⟨hd, rfl⟩)
    exact hc.stableStatics.lt_staticIndex? hx hlost hj

/-- `module M { static a; }` -/
def memberModule : ClassDef where
  id := .ident {} "M"
  superClass := none
  body := [.expression {} (.staticDecl {} (.ident {} "a"))]
  isModule := true

/-- The static index of `a` before and after the module, and its entry in the table. -/
def memberModule.observed : Emit (Option Nat × Option Symbol × Option Nat) := do
  pushScope .block
  readName .latestCommon "a" {}
  let s ← get
  classDef .latestCommon {} (memberModule.code (Options.context {} noSources 0)) false
  let t ← get
  pure (s.frame.slots.staticIndex? ⟨1, "a", false⟩, s.symbols.find? "a",
    t.frame.slots.staticIndex? ⟨1, "a", false⟩)

/-- The static that `a` was before the module is gone, and the member's slot has the name. -/
theorem memberModule_moves_static : ∃ s t, (do
      Emit.pushScope .block
      Emit.readName .latestCommon "a" {}) (Session.start {} "main") = .ok ((), s) ∧
    Emit.classDef .latestCommon {} (memberModule.code (Options.context {} noSources 0)) false s =
      .ok ((), t) ∧
    s.frame.slots.staticIndex? ⟨1, "a", false⟩ = some 0 ∧
    s.symbols.find? "a" = some ⟨1, "a", false⟩ ∧
    Contributes ⟨noSources, s.includeFolder, none⟩ .latestCommon false (s.includeFolder.isSome = true)
      (.stmt (.classDef {} memberModule)) (.clears "a") ∧
    ∃ j, t.frame.slots.staticIndex? ⟨1, "a", false⟩ = some j ∧ 0 < j := by
  have heval : (memberModule.observed (Session.start {} "main")).toOption.map Prod.fst =
      some (some 0, some ⟨1, "a", false⟩, some 1) := by cbv
  have hdoes (lib : Library) (via : Prop) : Contributes lib .latestCommon false via
      (.stmt (.classDef {} memberModule)) (.clears "a") :=
    .closed (d := .defines (Symbol.canonical "a")) rfl (List.mem_singleton.2 rfl)
      (.part rfl (fun h => by cases h) (List.mem_singleton.2 rfl) (.member (List.mem_singleton.2 rfl)))
  cases hrun : memberModule.observed (Session.start {} "main") with
  | error => simp [hrun, Except.toOption] at heval
  | ok r =>
    simp only [hrun, Except.toOption, Option.map_some, Option.some.injEq] at heval
    obtain ⟨⟨⟩, r1, h1, hr1⟩ := Emit.bind_ok.1 hrun
    obtain ⟨⟨⟩, s, h2, hr2⟩ := Emit.bind_ok.1 hr1
    obtain ⟨s', r2, h3, hr3⟩ := Emit.bind_ok.1 hr2
    obtain ⟨rfl, rfl⟩ := Emit.get_ok.1 h3
    obtain ⟨⟨⟩, t, h4, hr4⟩ := Emit.bind_ok.1 hr3
    obtain ⟨t', r3, h5, hr5⟩ := Emit.bind_ok.1 hr4
    obtain ⟨rfl, rfl⟩ := Emit.get_ok.1 h5
    rw [(Emit.pure_ok.1 hr5).1] at heval
    simp only [Prod.mk.injEq] at heval
    obtain ⟨hx, hfound, hj⟩ := heval
    exact ⟨_, _, Emit.bind_ok.2 ⟨_, _, h1, h2⟩, h4, hx, hfound, hdoes _ _, 1, hj,
      (classDef_static_stable_iff (o := {}) (by decide) h4 hx).2 hfound (hdoes _ _) 1 hj⟩

end Adhoc
