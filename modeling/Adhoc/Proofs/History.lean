import Adhoc.Proofs.Variables

namespace Adhoc

open List Draft

variable {v : Version} {ds : List Deed} {c : Scope} {slots : Slots} {modules : Prop}
  {ins : Instruction} {kind : ScopeKind}

theorem Version.has_of_eleven {c : Capability} (h : 11 ≤ v.number) (hc : c.span = (11, 13)) :
    v.has c = true := by
  simp [Version.has, hc, h, v.supported.2]

namespace Scope

theorem mem_note {x y : Symbol} {xs : List Symbol} : x ∈ note y xs ↔ x ∈ xs ∨ x = y := by
  unfold note
  split <;> rename_i h
  · exact ⟨.inl, (·.elim id fun hx => by simpa [hx] using h)⟩
  · simp

/-- All variables that are noted in one scope are noted in the other. -/
structure Notes (c c' : Scope) : Prop where
  locals : ∀ x ∈ c.locals, x ∈ c'.locals
  statics : ∀ x ∈ c.statics, x ∈ c'.statics

theorem Notes.refl (c : Scope) : c.Notes c := ⟨fun _ h => h, fun _ h => h⟩

theorem Notes.trans {c' c'' : Scope} (h : c.Notes c') (h' : c'.Notes c'') : c.Notes c'' :=
  ⟨fun x hx => h'.locals x (h.locals x hx), fun x hx => h'.statics x (h.statics x hx)⟩

theorem Notes.addLocal (c : Scope) (x : Symbol) : c.Notes (c.addLocal x) :=
  ⟨fun _ h => mem_note.2 (.inl h), fun _ h => h⟩

theorem Notes.addStatic (c : Scope) (x : Symbol) : c.Notes (c.addStatic x) :=
  ⟨fun _ h => h, fun _ h => mem_note.2 (.inl h)⟩

end Scope

namespace Draft

variable {known known' : Symbol → Prop} {d e f : Draft}

/-- The innermost scope. -/
def top (d : Draft) : Scope := d.bare.headD { kind := .block }

theorem top_of_bare {rest : List Scope} (h : d.bare = c :: rest) : d.top = c := by
  rw [top, h, headD_cons]

theorem top_congr (h : e.bare = d.bare) : e.top = d.top := by rw [top, top, h]

/-- The scopes around the innermost one are as they were, and all are of the same kinds. -/
structure Stays (d e : Draft) : Prop where
  around : e.bare.tail = d.bare.tail
  kinds : e.bare.map Scope.kind = d.bare.map Scope.kind

theorem Stays.of_bare (h : e.bare = d.bare) : d.Stays e := ⟨by rw [h], by rw [h]⟩

theorem Stays.trans (h : d.Stays e) (h' : e.Stays f) : d.Stays f :=
  ⟨h'.around.trans h.around, h'.kinds.trans h.kinds⟩

theorem Change.stays (h : d.Change known e ds) : d.Stays e := by
  cases h with
  | none _ hb | addStatics _ hb | capture _ _ _ _ hb => exact .of_bare hb
  | addLocal _ _ _ hd he | addStatic _ _ _ hd he | addMember _ _ hd he =>
    exact ⟨by rw [hd, he, tail_cons, tail_cons], by rw [hd, he]; rfl⟩

theorem Change.notes (h : d.Change known e ds) : d.top.Notes e.top := by
  cases h with
  | none _ hb | addStatics _ hb | capture _ _ _ _ hb => exact top_congr hb ▸ .refl _
  | addLocal _ _ _ hd he => exact top_of_bare hd ▸ top_of_bare he ▸ .addLocal _ _
  | addStatic _ _ _ hd he | addMember _ _ hd he => exact top_of_bare hd ▸ top_of_bare he ▸ .addStatic _ _

theorem Change.mono (h : d.Change known e ds) (hk : ∀ x, known x → known' x) :
    d.Change known' e ds := by
  cases h with
  | none h1 h2 h3 => exact .none h1 h2 h3
  | addLocal h1 h2 h3 h4 h5 h6 => exact .addLocal (hk _ h1) h2 h3 h4 h5 h6
  | addStatic h1 h2 h3 h4 h5 h6 => exact .addStatic (hk _ h1) h2 h3 h4 h5 h6
  | addMember h1 h2 h3 h4 h5 => exact .addMember (hk _ h1) h2 h3 h4 h5
  | addStatics h1 h2 h3 => exact .addStatics h1 h2 h3
  | capture h1 h2 h3 h4 h5 h6 => exact .capture (hk _ h1) h2 h3 h4 h5 h6

theorem Closes.bare (h : d.Closes e c slots) : d.bare = c.bare :: e.bare := by
  simp [Draft.bare, h.scopes]

theorem Closes.top (h : d.Closes e c slots) : d.top = c.bare :=
  top_of_bare h.bare

/-- After an opened scope is closed, the scopes are as before. -/
theorem Stays.closed (hin : Stays { d with scopes := { kind := kind } :: d.scopes } e)
    (h : e.Closes f c slots) : f.bare = d.bare := by
  have := hin.around
  rwa [h.bare] at this

end Draft

namespace Course

variable {s t : Session}

theorem stays (h : Course v ds s t) : s.frame.Stays t.frame := by
  refine h.foldClosed (P := fun _ d e => d.Stays e) (fun _ => .of_bare rfl) .trans (fun hstep => ?_)
    (fun _ ih hcloses => .of_bare (ih.closed hcloses)) fun _ _ _ _ _ _ => .of_bare rfl
  obtain ⟨_, _, -, hchange, -⟩ := hstep.act
  exact hchange.stays

theorem closed {r u : Session} (h : Course v ds (r.open kind) u)
    (hc : u.frame.Closes e c slots) : e.bare = r.frame.bare := h.stays.closed hc

theorem notes (h : Course v ds s t) : s.frame.top.Notes t.frame.top := by
  refine h.foldClosed (P := fun _ d e => d.top.Notes e.top) (fun _ => .refl _) .trans (fun hstep => ?_)
    (fun hin _ hcloses => ?_) fun _ _ _ _ _ _ => .refl _
  · obtain ⟨_, _, -, hchange, -⟩ := hstep.act
    exact hchange.notes
  · rw [top_congr (hin.closed hcloses)]
    exact .refl _

end Course

namespace Emit

variable {s t : Session}

theorem closed_turns {R : Draft → Draft → Prop} {b : Bool} {d : Draft}
    (hd : d = { t.frame with code := s.frame.code, moments := s.frame.moments })
    (hbuild : R s.frame d) (hcode : t.frame.code = if b then s.frame.code.push ins else s.frame.code)
    (hmoments : t.frame.moments = if b then s.frame.moments.push t.frame.slots else s.frame.moments)
    (hlast : R d (d.write ins t.frame.depth)) :
    Relation.ReflTransGen R s.frame t.frame := by
  subst hd
  split at hcode <;> rename_i hb
  · rw [if_pos hb] at hmoments
    simp only [write, ← hcode, ← hmoments] at hlast
    exact (Relation.ReflTransGen.single hbuild).tail hlast
  · rw [if_neg hb] at hmoments
    rw [← hcode, ← hmoments] at hbuild
    exact .single hbuild

theorem leaveScope_leads {leaves : Bool} (h : leaveScope v leaves s = .ok ((), t)) :
    s.frame.Leads v modules t.frame := by
  obtain ⟨c, hcloses, hcode, -⟩ := leaveScope_closes h
  exact closed_turns rfl (.closeScope ⟨hcloses.remains.trans ⟨rfl, rfl, rfl, rfl⟩, hcloses.scopes,
    hcloses.slots, hcloses.captured⟩ rfl rfl) hcode (leaveScope_moments h) (.leave _)

theorem leaveModuleScope_leads (hm : modules) (h : leaveModuleScope v s = .ok ((), t)) :
    s.frame.Leads v modules t.frame := by
  obtain ⟨c, hcloses, ⟨n, hcode⟩, -⟩ := leaveModuleScope_closes h
  exact closed_turns rfl (.closeModule hm ⟨hcloses.remains.trans ⟨rfl, rfl, rfl, rfl⟩, hcloses.scopes,
    hcloses.slots, hcloses.captured⟩ rfl rfl) hcode (leaveModuleScope_moments h)
    (.leaveModule _ _ n hm)

end Emit

namespace Draft

variable {modules' : Prop} {d e : Draft}

theorem BuildStep.mono (h : d.BuildStep v modules e) (hm : modules → modules') :
    d.BuildStep v modules' e := by
  cases h with
  | step h1 h2 h3 h4 => exact .step h1 h2 h3 h4
  | parameter h => exact .parameter h
  | rest => exact .rest
  | reserve => exact .reserve
  | openScope => exact .openScope _
  | closeScope h1 h2 h3 => exact .closeScope h1 h2 h3
  | closeModule h h1 h2 h3 => exact .closeModule (hm h) h1 h2 h3
  | leave => exact .leave _
  | leaveModule _ _ _ h => exact .leaveModule _ _ _ (hm h)
  | subroutine => exact .subroutine _ _ _ _ _

theorem Leads.mono (h : d.Leads v modules e) (hm : modules → modules') : d.Leads v modules' e :=
  Relation.ReflTransGen.mono (fun _ _ ht => BuildStep.mono ht hm) _ _ h

end Draft

namespace Course

variable {s t : Session}

theorem leads (h : Course v ds s t) : s.frame.Leads v (.encloses ∈ ds) t.frame := by
  refine h.fold (P := fun ds d e => d.Leads v (.encloses ∈ ds) e) (fun _ => .refl)
    (fun h h' => (Leads.mono h (mem_append_left _)).trans
      (Leads.mono h' (mem_append_right _))) (fun hstep => ?_)
    (fun _ hleave ih => ?_) (fun _ hleave ih => ?_)
    fun _ depth _ _ _ _ => .single (.subroutine depth _ _ _ _)
  · obtain ⟨_, _, -, hchange, hwrites⟩ := hstep.act
    exact .single (.step hstep.remains (hchange.mono fun _ _ => trivial) hwrites hstep.records)
  · exact .head (.openScope _) ((Leads.mono ih fun h => mem_filter.2 ⟨h, rfl⟩).trans
      (Emit.leaveScope_leads hleave))
  · exact .head (.openScope .module) ((Leads.mono ih fun _ => mem_cons_self).trans
      (Emit.leaveModuleScope_leads mem_cons_self hleave))

end Course

namespace Draft

variable {d e f : Draft} {rs qs : List Slots.Request}

theorem Change.requests (h : d.Change known e ds) : ∃ rs, e.slots = d.slots.run rs ∧
    (∀ c, .add .local c ∉ rs) ∧ ∀ k x, .free k x ∉ rs := by
  have hnew : ∀ {k x}, d.slots.index? k x = .none → e.slots = (d.slots.add k (some x)).2 →
      e.slots = d.slots.run [.enter k x] := fun hx h =>
    h.trans (congrArg Prod.snd (Slots.enter_of_none hx)).symm
  cases h with
  | none h => exact ⟨[], h, by simp⟩
  | addLocal _ hx h => exact ⟨_, hnew (k := .local) hx h, by simp⟩
  | addStatic _ hx h => exact ⟨_, hnew (k := .static) hx h, by simp⟩
  | capture _ hc hx h => exact ⟨_, hnew (k := .local) (captures_localIndex? hc hx) h, by simp⟩
  | @addMember x _ _ _ h => exact ⟨[.add .static (some x)], h, by simp⟩
  | @addStatics xs h =>
    exact ⟨xs.map (.add .static), h.trans (Slots.run_map _ (.add .static) xs).symm, by simp⟩

theorem left_requests (k : SlotKind) (xs : List Symbol) (slots : Slots) :
    ∃ rs, left v (·.free k) xs slots = slots.run rs ∧ (∀ c, .add .local c ∉ rs) ∧
      ∀ k x, .free k x ∈ rs → v.has .freesOnLeave = true := by
  unfold left
  split
  · exact ⟨xs.map (.free k), (Slots.run_map slots (.free k) xs).symm, by simp, fun _ _ _ => ‹_›⟩
  · exact ⟨[], rfl, by simp⟩

theorem left_edits (k : SlotKind) (xs : List Symbol) (slots : Slots) :
    slots.Edits (v.has .freesOnLeave = true) (left v (·.free k) xs slots) := by
  obtain ⟨rs, hslots, -, hfree⟩ := left_requests k xs slots
  exact ⟨rs, hslots, hfree⟩

theorem BuildStep.edits (h : d.BuildStep v modules e) :
    d.slots.Edits (v.has .freesOnLeave = true) e.slots := by
  cases h with
  | step _ hchange =>
    obtain ⟨rs, hslots, -, hfree⟩ := hchange.requests
    exact ⟨rs, hslots, fun k x hx => absurd hx (hfree k x)⟩
  | @parameter x _ h =>
    obtain ⟨i, huse⟩ := addParameter_uses h
    exact ⟨[.enter .local x], (useLocal_slots huse).2.1, by simp⟩
  | reserve => exact ⟨[.add .local none], rfl, by simp⟩
  | closeScope h => exact h.slots ▸ left_edits .local _ _
  | closeModule _ h => exact h.slots ▸ left_edits .static _ _
  | rest | openScope | leave | leaveModule | subroutine => exact .refl _

theorem Leads.edits (h : d.Leads v modules e) :
    d.slots.Edits (v.has .freesOnLeave = true) e.slots := by
  induction h with
  | refl => exact .refl _
  | tail _ hbuild ih => exact ih.trans hbuild.edits

end Draft

theorem Emit.leaveScope_byName {s t : Session} {leaves : Bool}
    (h : leaveScope v leaves s = .ok ((), t)) : s.frame.slots.ByName t.frame.slots := by
  obtain ⟨c, hcloses, -, -⟩ := leaveScope_closes h
  obtain ⟨rs, hleft, hrs, -⟩ := Draft.left_requests (v := v) .local c.locals s.frame.slots
  exact ⟨rs, hcloses.slots.trans hleft, hrs⟩

theorem Course.byName {s t : Session} (h : Course v ds s t) :
    s.frame.slots.ByName t.frame.slots := by
  refine h.fold (P := fun _ d e => d.slots.ByName e.slots) (fun _ => .refl _) .trans (fun hstep => ?_)
    (fun _ hleave ih => ih.trans (Emit.leaveScope_byName hleave)) (fun _ hleave ih => ih.trans ?_)
    fun _ _ _ _ _ _ => .refl _
  · obtain ⟨_, _, -, hchange, -⟩ := hstep.act
    obtain ⟨rs, hslots, hrs, -⟩ := hchange.requests
    exact ⟨rs, hslots, hrs⟩
  · obtain ⟨c, hcloses, -, -⟩ := Emit.leaveModuleScope_closes hleave
    obtain ⟨rs, hleft, hrs, -⟩ := Draft.left_requests (v := v) .static c.statics _
    exact ⟨rs, hcloses.slots.trans hleft, hrs⟩

/-- The code goes on: what is no jump stays where it is. -/
structure GoesOn (code code' : Array Instruction) : Prop where
  size : code.size ≤ code'.size
  same : ∀ k ins, k < code.size → ins.operation.target? = none →
    (code'[k]? = some ins ↔ code[k]? = some ins)

namespace GoesOn

variable {code code' code'' : Array Instruction}

theorem refl (code : Array Instruction) : GoesOn code code := ⟨le_rfl, fun _ _ _ _ => .rfl⟩

theorem trans (h : GoesOn code code') (h' : GoesOn code' code'') : GoesOn code code'' :=
  ⟨Nat.le_trans h.size h'.size, fun k ins hk hj =>
    (h'.same k ins (Nat.lt_of_lt_of_le hk h.size) hj).trans (h.same k ins hk hj)⟩

theorem push (code : Array Instruction) (ins : Instruction) : GoesOn code (code.push ins) where
  size := by simp
  same k ins' hk _ := by rw [Array.getElem?_push_lt hk, Array.getElem?_eq_getElem hk]

theorem get {k : Nat} (h : GoesOn code code') (hj : ins.operation.target? = none)
    (hget : code[k]? = some ins) : code'[k]? = some ins :=
  (h.same k ins (Array.getElem?_eq_some_iff.1 hget).1 hj).2 hget

end GoesOn

namespace Draft

variable {d e : Draft}

theorem patch_goesOn {k target : Nat} (h : patch k target d = .ok ((), e)) :
    GoesOn d.code e.code ∧ e.code.size = d.code.size := by
  unfold patch at h
  split at h
  · cases h
  rename_i old hold
  split at h <;> cases h
  rename_i op hop
  refine ⟨⟨by simp, fun j ins hj htarget => ?_⟩, by simp⟩
  simp only [Array.getElem?_setIfInBounds]
  split
  · rename_i hjk
    subst hjk
    -- Both the old and the new instruction are jumps.
    obtain ⟨line, old⟩ := old
    cases old <;> simp only [Operation.withTarget?, reduceCtorEq, Option.some.injEq] at hop
    subst hop
    simp only [hj, if_true, hold, Option.some.injEq]
    constructor <;> rintro rfl <;> cases htarget
  · rfl

theorem Writes.goesOn (h : d.Writes e ds) :
    GoesOn d.code e.code ∧ e.code.size ≤ d.code.size + 1 := by
  have hpush : ∀ {ins}, e.code = d.code.push ins →
      GoesOn d.code e.code ∧ e.code.size ≤ d.code.size + 1 :=
    fun h => h ▸ ⟨.push _ _, by simp⟩
  cases h with
  | none h => exact h ▸ ⟨.refl _, by omega⟩
  | patch h he =>
    obtain ⟨hc, hsize⟩ := patch_goesOn h
    exact he ▸ ⟨hc, by omega⟩
  | plain _ h | captured _ _ _ h | «local» _ _ h | static _ _ _ h | own _ h | self _ h =>
    exact hpush h

theorem addParameter_code {x : Symbol} (h : addParameter x d = .ok ((), e)) : e.code = d.code := by
  obtain ⟨i, huse⟩ := addParameter_uses h
  exact (useLocal_slots huse).1.code

theorem BuildStep.goesOn (h : d.BuildStep v modules e) :
    GoesOn d.code e.code ∧ e.code.size ≤ d.code.size + 1 := by
  cases h with
  | step _ _ h => exact h.goesOn
  | parameter h => exact addParameter_code h ▸ ⟨.refl _, by omega⟩
  | rest | reserve | openScope => exact ⟨.refl _, by simp⟩
  | closeScope _ h | closeModule _ _ h => exact h ▸ ⟨.refl _, by omega⟩
  | leave | leaveModule | subroutine => exact ⟨.push _ _, by simp⟩

theorem Leads.goesOn (h : d.Leads v modules e) : GoesOn d.code e.code := by
  induction h with
  | refl => exact .refl _
  | tail _ hbuild ih => exact ih.trans hbuild.goesOn.1

theorem addParameter_moments {x : Symbol} (h : addParameter x d = .ok ((), e)) :
    e.moments = d.moments := by
  obtain ⟨i, huse⟩ := addParameter_uses h
  exact (useLocal_slots huse).1.moments

theorem BuildStep.records (h : d.BuildStep v modules e) : d.Records e := by
  cases h with
  | step _ _ _ h => exact h
  | parameter h => exact .rest (addParameter_code h) (addParameter_moments h)
  | rest | reserve | openScope => exact .rest rfl rfl
  | closeScope _ h h' | closeModule _ _ h h' => exact .rest h h'
  | leave | leaveModule | subroutine => exact .write _ _ _

/-- There are slots for every instruction. -/
def Noted (d : Draft) : Prop := d.moments.size = d.code.size

theorem Records.noted (h : d.Records e) (hd : d.Noted) : e.Noted := by
  rcases h with ⟨hsize, h⟩ | ⟨hsize, h⟩
  · rwa [Noted, h, hsize]
  · rw [Noted, h, hsize, Array.size_push, hd]

theorem Records.moments (h : d.Records e) {k : Nat} (hk : d.moments[k]? = some slots) :
    e.moments[k]? = some slots := by
  rcases h with ⟨-, h⟩ | ⟨-, h⟩
  · rwa [h]
  · rwa [h, Array.getElem?_push, if_neg (Nat.ne_of_lt (Array.getElem?_eq_some_iff.1 hk).1)]

theorem Records.moment (h : d.Records e) (hd : d.Noted) (hsize : e.code.size = d.code.size + 1) :
    e.moments[d.code.size]? = some e.slots := by
  rcases h with ⟨hsame, -⟩ | ⟨-, h⟩
  · omega
  · rw [h, ← hd, Array.getElem?_push_size]

theorem Leads.noted (h : d.Leads v modules e) (hd : d.Noted) : e.Noted := by
  induction h with
  | refl => exact hd
  | tail _ hbuild ih => exact hbuild.records.noted ih

theorem Leads.moments (h : d.Leads v modules e) {k : Nat} (hk : d.moments[k]? = some slots) :
    e.moments[k]? = some slots := by
  induction h with
  | refl => exact hk
  | tail _ hbuild ih => exact hbuild.records.moments ih

theorem Fresh.noted {enclosing : Option (List Symbol)} {isRoot : Bool}
    (h : d.Fresh v enclosing isRoot) : d.Noted := by
  obtain ⟨source, rfl⟩ := h
  rfl

theorem written_of_turns {R : Draft → Draft → Prop} {p : Nat}
    (hR : ∀ ⦃d e⦄, R d e → e.code.size ≤ d.code.size + 1) (h : Relation.ReflTransGen R d e)
    (hp : d.code.size ≤ p) (hp' : p < e.code.size) : ∃ m m', Relation.ReflTransGen R d m ∧ R m m' ∧
      Relation.ReflTransGen R m' e ∧ m.code.size = p ∧ m'.code.size = p + 1 := by
  induction h with
  | refl => omega
  | @tail f e hlead hbuild ih =>
    by_cases hf : p < f.code.size
    · obtain ⟨m, m', h1, h2, h3, h4⟩ := ih hf
      exact ⟨m, m', h1, h2, h3.tail hbuild, h4⟩
    · have hsize := hR hbuild
      exact ⟨f, e, hlead, hbuild, .refl, by omega, by omega⟩

end Draft

end Adhoc
