import Adhoc.Proofs.FrameCourses
import Adhoc.Proofs.LexicalCapture
import Adhoc.Proofs.ScopeSymmetry
import Adhoc.Proofs.StaticSlots

namespace Adhoc

open Emit List Draft Slots

variable {α : Type} {v : Version} {enclosing : Option (List Symbol)} {names names' : List Symbol}
  {x : Symbol} {index : Int} {i p : Nat} {reach : Reach} {line : UInt32} {isRoot : Bool}

namespace Slots

variable {a b slots : Slots} {y : Symbol}

/-- Locals and statics share one table. -/
def Shares (slots : Slots) : Prop := ∃ cells, slots.tables = .unified cells

theorem Edits.shares {frees : Prop} (h : a.Edits frees b) (ha : a.Shares) : b.Shares := by
  refine h.induction ha (fun slots k c h => ?_) fun _ slots k x h => free_induction h fun i => ?_
  · obtain ⟨cells, h⟩ := h
    cases k
    · exact ⟨place (c.map (.local, ·)) cells, by simp [add, addLocal, change, h, SlotTables.addLocal]⟩
    · exact ⟨cells ++ [c.map (.static, ·)], by simp [add, addStatic, change, h, SlotTables.addStatic]⟩
  · obtain ⟨cells, h⟩ := h
    exact ⟨cells.set i none, by cases k <;> simp [clear, change, h, SlotTables.clear]⟩

theorem Shares.not_both (h : slots.Shares) (hx : slots.local? i = some x)
    (hy : slots.static? i = some y) : False := by
  obtain ⟨cells, h⟩ := h
  simp only [local?, static?, h] at hx hy
  cases (ofKind_eq_some.1 hx).symm.trans (ofKind_eq_some.1 hy)

end Slots

/-- The names are those of a variable other than `self`. -/
def NotSelf (names : List Symbol) : Prop := ∀ x, names.getLast? = some x → x.name ≠ "self"

namespace Draft

variable {modules : Prop} {known : Symbol → Prop} {d e : Draft} {ds : List Deed}

theorem BuildStep.captured_prefix (h : d.BuildStep v modules e) : d.captured <+: e.captured := by
  cases h with
  | step _ hchange => exact hchange.captured_prefix
  | parameter h =>
    obtain ⟨i, huse⟩ := addParameter_uses h
    exact (useLocal_slots huse).2.2 ▸ prefix_rfl
  | closeScope h | closeModule _ h => exact h.captured ▸ prefix_rfl
  | rest | reserve | openScope | leave | leaveModule | subroutine => exact prefix_rfl

theorem Leads.captured_prefix (h : d.Leads v modules e) : d.captured <+: e.captured := by
  induction h with
  | refl => exact prefix_rfl
  | tail _ hbuild ih => exact ih.trans hbuild.captured_prefix

/-- What the names and the index of a variable stand for, in a frame that is made as far as the
draft. -/
inductive Addresses (d : Draft) : List Symbol → Int → Prop
  | captured {x : Symbol} {k : Nat} {names : List Symbol} : d.captured[k]? = some x →
    names.getLast? = some x → Addresses d names (Int.negSucc k)
  | local {x : Symbol} {i : Nat} : d.slots.local? i = some x → Addresses d [x] i
  | static {x : Symbol} {i : Nat} {names : List Symbol} : 2 ≤ names.length →
    names.getLast? = some x → d.slots.static? i = some x → Addresses d names i
  | self {x : Symbol} {index : Int} : x.name = "self" → Addresses d [x] index

theorem Addresses.congr (h : d.Addresses names index) (hslots : e.slots = d.slots)
    (hcaptured : e.captured = d.captured) : e.Addresses names index := by
  cases h with
  | captured hk hlast => exact .captured (hcaptured ▸ hk) hlast
  | «local» hx => exact .local (hslots ▸ hx)
  | static hlen hlast hx => exact .static hlen hlast (hslots ▸ hx)
  | self hname => exact .self hname

theorem Outcome.addresses {access : Access} (h : Outcome x access d e index)
    (hlast : names.getLast? = some x)
    (hlocal : access ≠ .readStatic → e.slots.hasLocal x = true → names = [x])
    (hsingle : names = [x] → access ≠ .readStatic ∧ (x.name = "self" ∨ e.slots.hasLocal x = true)) :
    e.Addresses names index := by
  cases h with
  | captured _ _ hk => exact .captured hk hlast
  | declared haccess hi =>
    rw [hlocal (by simp [haccess]) (by simp [hasLocal, hi])]
    exact .local (localIndex?_eq_some.1 hi).1
  | «local» _ hread _ hi =>
    rw [hlocal hread (by simp [hasLocal, hi])]
    exact .local (localIndex?_eq_some.1 hi).1
  | static _ _ hi hnone =>
    rcases names with _ | ⟨y, _ | ⟨z, rest⟩⟩
    · cases hlast
    · obtain rfl : y = x := by simpa using hlast
      obtain ⟨hread, hself⟩ := hsingle rfl
      exact .self (hself.resolve_right (by simp [hnone hread]))
    · exact .static (by simp) hlast (staticIndex?_eq_some.1 hi).1

theorem NamedStep.addresses (h : d.NamedStep v e)
    (hget : e.code[d.code.size]? = some ⟨line, .variable reach names index⟩) :
    e.Addresses names index := by
  have hsize : ¬e.code.size ≤ d.code.size := fun hle => by
    rw [Array.getElem?_eq_none hle] at hget
    cases hget
  have hpushed : ∀ {ins}, e.code = d.code.push ins → ⟨line, .variable reach names index⟩ = ins :=
    fun hcode => eq_of_pushed hcode le_rfl hget
  obtain ⟨hbuild, hnamed⟩ := h
  cases hbuild with
  | step _ _ hwrites =>
    cases hwrites with
    | none h => exact absurd (h ▸ le_rfl) hsize
    | patch h he => exact absurd (Nat.le_of_eq (he ▸ (patch_goesOn h).2)) hsize
    | plain hplain h =>
      cases hpushed h
      cases hplain
    | captured _ hk hlast h =>
      cases hpushed h
      exact .captured hk hlast
    | «local» _ hi h | own hi h =>
      cases hpushed h
      exact .local (localIndex?_eq_some.1 hi).1
    | @static x i _ names _ _ hi hlast h =>
      cases hpushed h
      have hstatic := (staticIndex?_eq_some.1 hi).1
      rcases names with _ | ⟨y, _ | ⟨z, rest⟩⟩
      · cases hlast
      · -- Under one name it is a local, whatever static there is.
        rcases hnamed _ _ y i h with hlocal | ⟨hself, -⟩
        · exact .local (localIndex?_eq_some.1 hlocal).1
        · exact .self hself
      · exact .static (by simp) hlast hstatic
    | self hself h =>
      cases hpushed h
      exact .self hself
  | parameter h => exact absurd (addParameter_code h ▸ le_rfl) hsize
  | rest | reserve | openScope => exact absurd le_rfl hsize
  | closeScope _ h | closeModule _ _ h => exact absurd (h ▸ le_rfl) hsize
  | leave | leaveModule | subroutine => cases hpushed rfl

theorem NamedLeads.addressed (h : d.NamedLeads v e) (hd : d.Noted) (hp : d.code.size ≤ p)
    (hget : e.code[p]? = some ⟨line, .variable reach names index⟩) :
    ∃ m, d.NamedLeads v m ∧ m.NamedLeads v e ∧ m.code.size = p + 1 ∧
      m.moments[p]? = some m.slots ∧ m.Addresses names index := by
  obtain ⟨m, m', hbefore, hbuild, hafter, rfl, hsize⟩ :=
    written_of_turns (fun _ _ h => h.1.goesOn.2) h hp (Array.getElem?_eq_some_iff.1 hget).1
  have hwritten := (Leads.goesOn (NamedLeads.leads hafter)).same _ _ (by omega) rfl |>.1 hget
  have hnoted : m.Noted := Leads.noted (NamedLeads.leads hbefore) hd
  exact ⟨m', hbefore.tail hbuild, hafter, hsize, hbuild.1.records.moment hnoted hsize,
    hbuild.addresses hwritten⟩

theorem NamedLeads.addressed_two {q : Nat} {line' : UInt32} {reach' : Reach} {index' : Int}
    (h : d.NamedLeads v e) (hd : d.Noted) (hp : d.code.size ≤ p) (hpq : p < q)
    (hget : e.code[p]? = some ⟨line, .variable reach names index⟩)
    (hget' : e.code[q]? = some ⟨line', .variable reach' names' index'⟩) :
    ∃ m m', d.Leads v True m ∧ m.Leads v True m' ∧ m.Addresses names index ∧
      m'.Addresses names' index' := by
  obtain ⟨m', hbefore, hafter, hsize', -, haddress'⟩ := h.addressed hd (by omega) hget'
  have hwritten := (Leads.goesOn hafter.leads).same p _ (by omega) rfl |>.1 hget
  obtain ⟨m, hstart, hend, -, -, haddress⟩ := hbefore.addressed hd hp hwritten
  exact ⟨m, m', hstart.leads, hend.leads, haddress, haddress'⟩

theorem Addresses.getLast?_eq {m m' : Draft} (h : m.Addresses names i) (h' : m'.Addresses names' i)
    {frees : Prop} (hedits : m.slots.Edits frees m'.slots)
    (hlen : 2 ≤ names.length) (hlen' : 2 ≤ names'.length) :
    names.getLast? = names'.getLast? := by
  cases h with
  | «local» | self => simp at hlen
  | static _ hlast hx =>
    cases h' with
    | «local» | self => simp at hlen'
    | static _ hlast' hy =>
      rw [hlast, hlast', ← hx]
      exact (StableStatics.of_edits hedits).old _ (static?_lt hx) _ hy

/-- Where nothing is freed from a shared table, an index has one name and one kind. -/
theorem Addresses.shared {m m' : Draft} (h : m.Addresses names i) (h' : m'.Addresses names' i)
    (hedits : m.slots.Edits (v.has .freesOnLeave = true) m'.slots) (hshares : m'.slots.Shares)
    (hv : v.has .freesOnLeave = false) (hself : NotSelf names) (hself' : NotSelf names') :
    names.getLast? = names'.getLast? ∧ (names.length = 1 ↔ names'.length = 1) := by
  cases h with
  | self hname => exact absurd hname (hself _ rfl)
  | «local» hx =>
    have hkept := hedits.kept (k := .local) (Bool.eq_false_iff.1 hv) hx
    cases h' with
    | self hname => exact absurd hname (hself' _ rfl)
    | «local» hy => exact ⟨congrArg some (Option.some.inj (hkept.symm.trans hy)), Iff.rfl⟩
    | static _ _ hy => exact (hshares.not_both hkept hy).elim
  | static hlen hlast hx =>
    have hkept := hedits.kept (k := .static) (Bool.eq_false_iff.1 hv) hx
    cases h' with
    | self hname => exact absurd hname (hself' _ rfl)
    | «local» hy => exact (hshares.not_both hy hkept).elim
    | static hlen' hlast' hy => exact ⟨by rw [hlast, hlast', ← hkept, ← hy]; rfl, by omega⟩

theorem Fresh.code (h : d.Fresh v enclosing isRoot) : d.code = #[] := by
  obtain ⟨source, rfl⟩ := h
  rfl

theorem Fresh.shares (hv : v.has .splitStorage = false) (h : d.Fresh v enclosing isRoot) :
    d.slots.Shares := by
  obtain ⟨source, rfl⟩ := h
  exact ⟨[], by simp [start, empty, hv]⟩

end Draft

namespace Emit

/-- Every run of the action writes one variable, which stands for something then. -/
def Addresses (x : Emit Unit) : Prop :=
  ∀ ⦃s t⦄, x s = .ok ((), t) → ∃ line reach names index,
    t.frame.code = s.frame.code.push ⟨line, .variable reach names index⟩ ∧
      t.frame.Addresses names index

variable {use : Access}

theorem resolved_addresses {s r t : Session} (huse : use ≠ .writeStatic)
    (h : onFrame (resolve x use) s = .ok (index, r)) (hlast : names.getLast? = some x)
    (hlocal : use ≠ .readStatic → r.frame.slots.hasLocal x = true → names = [x])
    (hsingle : names = [x] →
      use ≠ .readStatic ∧ (x.name = "self" ∨ r.frame.slots.hasLocal x = true))
    (hemit : emit v (.variable reach names index) line r = .ok ((), t)) :
    ∃ line reach names index, t.frame.code = s.frame.code.push ⟨line, .variable reach names index⟩ ∧
      t.frame.Addresses names index := by
  obtain ⟨d, hd, rfl⟩ := onFrame_ok.1 h
  obtain ⟨depth, rfl⟩ := emit_ok hemit
  obtain ⟨hresolves, houtcome, -⟩ := @resolve_ok _ (fun _ => True) _ _ _ _ trivial huse hd
  have haddress := houtcome.addresses hlast hlocal hsingle
  exact ⟨line, reach, names, index, by rw [← hresolves.code]; rfl, haddress.congr rfl rfl⟩

namespace Addresses

theorem after {x : Emit α} {f : α → Emit Unit} (hx : Neutral x) (hf : ∀ a, Addresses (f a)) :
    Addresses (x >>= f) := by
  intro s t h
  obtain ⟨a, r, h1, h2⟩ := bind_ok.1 h
  rw [← (hx h1).code]
  exact hf a h2

theorem access (reach : Reach) (x : Symbol) (line : UInt32) (huse : use ≠ .writeStatic)
    (hread : use ≠ .readStatic) : Addresses (access v reach x use line) := by
  intro s t h
  obtain ⟨index, r, hr, hrest⟩ := bind_ok.1 h
  obtain ⟨names, r', hn, hemit⟩ := bind_ok.1 hrest
  obtain ⟨f, r'', hf, hpure⟩ := bind_ok.1 hn
  obtain ⟨rfl, rfl⟩ := frame_ok.1 hf
  obtain ⟨rfl, rfl⟩ := pure_ok.1 hpure
  refine resolved_addresses huse hr ?_ (fun _ hl => ?_) (fun hone => ⟨hread, ?_⟩) hemit
  · split <;> rfl
  · simp [isStatic, hl]
  · by_contra hno
    simp only [not_or, Bool.not_eq_true] at hno
    simp [isStatic, hno] at hone

theorem readName (name : String) (loc : Loc) : Addresses (readName v name loc) :=
  after (.symbol _) fun x => access _ x _ (by simp) (by simp)

theorem pushName (name : String) (loc : Loc) (declares : Bool) :
    Addresses (pushName v name loc declares) :=
  after (.symbol _) fun x => access _ x _ (by split <;> simp) (by split <;> simp)

theorem readTemporary (x : Symbol) (line : UInt32) : Addresses (readTemporary v x line) := by
  intro s t h
  obtain ⟨index, r, hr, hemit⟩ := bind_ok.1 h
  obtain ⟨d, hd, rfl⟩ := onFrame_ok.1 hr
  unfold localIndex at hd
  split at hd <;> cases hd
  obtain ⟨depth, rfl⟩ := emit_ok hemit
  exact ⟨_, _, _, _, rfl, .local (localIndex?_eq_some.1 ‹_›).1⟩

theorem member (reach : Reach) (parts : List String) (loc : Loc) :
    Addresses (member v reach parts loc) := by
  intro s t h
  obtain ⟨⟨names, full⟩, r, hpath, hrest⟩ := bind_ok.1 h
  obtain ⟨index, r', hr, hemit⟩ := bind_ok.1 hrest
  rw [← (Neutral.splitPath _ hpath).code]
  exact resolved_addresses (by simp) hr (by simp) (by simp)
    (fun hone => absurd hone (by simp [(Follows.splitPath_ok hpath).2])) hemit

theorem selfValue (loc : Loc) : Addresses (selfValue v loc) := by
  refine after .require fun _ s t h => ?_
  obtain ⟨x, r, hx, hemit⟩ := bind_ok.1 h
  obtain ⟨-, hname, -, hframe⟩ := symbol_ok hx
  obtain ⟨depth, rfl⟩ := emit_ok hemit
  exact ⟨_, _, _, _, by rw [← hframe]; rfl, .self hname⟩

end Addresses
end Emit

theorem Version.has_of_ten {c : Capability} (h : v.number ≤ 10) (hc : c.span = (11, 13)) :
    v.has c = false := by
  simp [Version.has, hc]
  omega

namespace Frame

section

variable (v : Version) (f : Frame) (p : Nat) (x : Symbol) (i : Nat)

/-- The slot is one for locals, and it held the name when the instruction at `p` was written. It holds
the name in the end if nothing is freed. -/
structure LocalSlot : Prop where
  inTable : i < f.header.slots.localSize
  unreserved : 11 ≤ v.number → 1 ≤ i
  held : ∃ slots, f.header.moments[p]? = some slots ∧ slots.local? i = some x
  kept : v.number ≤ 10 → f.header.slots.local? i = some x

/-- The slot is one for statics, and it held the name when the instruction at `p` was written. It
holds the name or nothing in the end. -/
structure StaticSlot : Prop where
  inTable : 11 ≤ v.number → ∃ n, f.header.slots.staticSize? = some n ∧ i < n
  inShared : v.number ≤ 10 → i < f.header.slots.localSize
  held : ∃ slots, f.header.moments[p]? = some slots ∧ slots.static? i = some x
  kept : v.number ≤ 10 → f.header.slots.static? i = some x
  unreplaced : ∀ y, f.header.slots.static? i = some y → y = x

/-- The names of the variable at `p` say what its index stands for. -/
structure Addressed (names : List Symbol) (index : Int) : Prop where
  named : names ≠ []
  captured : index < 0 → ∃ k : Nat, index = -(k + 1) ∧ k < f.header.captured.length
  «local» : 0 ≤ index → names.length = 1 →
    ∃ x, ∃ i : Nat, names = [x] ∧ index = i ∧ f.LocalSlot v p x i
  static : 0 ≤ index → 2 ≤ names.length →
    ∃ x, ∃ i : Nat, names.getLast? = some x ∧ index = i ∧ f.StaticSlot v p x i

end

variable {d0 m d : Draft}

theorem LocalSlot.of_moment (hfresh : d0.Fresh v enclosing isRoot) (hbefore : d0.Leads v True m)
    (hafter : m.Leads v True d) (hmoment : m.moments[p]? = some m.slots)
    (hx : m.slots.local? i = some x) :
    d.finish.LocalSlot v p x i where
  inTable := Nat.lt_of_lt_of_le (holds_lt (k := .local) hx) ((Leads.edits hafter).tableSize_le .local)
  unreserved hv := by
    obtain ⟨rest, statics, hslots⟩ :=
      (Leads.edits hbefore).reserves (hfresh.reserves (Version.has_of_eleven hv rfl))
    refine Nat.pos_of_ne_zero fun hzero => ?_
    rw [hzero, local?, hslots] at hx
    cases hx
  held := ⟨m.slots, Leads.moments hafter hmoment, hx⟩
  kept hv := (Leads.edits hafter).kept (k := .local) (Bool.eq_false_iff.1 (Version.has_of_ten hv rfl)) hx

theorem StaticSlot.of_moment (hfresh : d0.Fresh v enclosing isRoot) (hbefore : d0.Leads v True m)
    (hafter : m.Leads v True d) (hmoment : m.moments[p]? = some m.slots)
    (hx : m.slots.static? i = some x) :
    d.finish.StaticSlot v p x i := by
  have hedits := Leads.edits hafter
  have hall := Leads.edits (hbefore.trans hafter)
  have hstable := StableStatics.of_edits hedits
  have hlt : i < d.slots.staticEnd := Nat.lt_of_lt_of_le (static?_lt hx) hstable.grows
  refine ⟨fun hv => ?_, fun hv => ?_, ⟨m.slots, Leads.moments hafter hmoment, hx⟩, fun hv =>
    hedits.kept (k := .static) (Bool.eq_false_iff.1 (Version.has_of_ten hv rfl)) hx, fun y hy => ?_⟩
  · obtain ⟨rest, statics, hslots⟩ := hall.reserves (hfresh.reserves (Version.has_of_eleven hv rfl))
    rw [staticEnd_eq, tableSize] at hlt
    simp only [finish, staticSize?, hslots] at hlt ⊢
    exact ⟨_, rfl, hlt⟩
  · obtain ⟨cells, hslots⟩ := hall.shares (hfresh.shares (Version.has_of_ten hv rfl))
    rw [staticEnd_eq, tableSize] at hlt
    simp only [staticSize?, hslots] at hlt
    exact hlt
  · exact Option.some.inj ((hstable.old i (static?_lt hx) y hy).symm.trans hx)

theorem Addressed.of_moment (hfresh : d0.Fresh v enclosing isRoot) (hbefore : d0.Leads v True m)
    (hafter : m.Leads v True d) (hmoment : m.moments[p]? = some m.slots)
    (haddress : m.Addresses names index) (hself : NotSelf names) :
    d.finish.Addressed v p names index := by
  cases haddress with
  | @captured x k _ hk hlast =>
    have hk' := getElem?_of_prefix (Leads.captured_prefix hafter) hk
    refine ⟨fun hnil => by simp [hnil] at hlast, fun _ => ⟨k, by omega, ?_⟩, fun hn => ?_, fun hn => ?_⟩
    · exact (List.getElem?_eq_some_iff.1 hk').1
    all_goals exact absurd hn (by omega)
  | @«local» x i hx =>
    refine ⟨by simp, fun hneg => absurd hneg (by omega), fun _ _ => ?_, fun _ hlen => ?_⟩
    · exact ⟨x, i, rfl, rfl, .of_moment hfresh hbefore hafter hmoment hx⟩
    · simp at hlen
  | @static x i _ hlen hlast hx =>
    refine ⟨fun hnil => by simp [hnil] at hlen, fun hneg => absurd hneg (by omega),
      fun _ hone => by omega, fun _ _ => ?_⟩
    exact ⟨x, i, hlast, rfl, .of_moment hfresh hbefore hafter hmoment hx⟩
  | @self x _ hname => exact absurd hname (hself x rfl)

end Frame

/-- What two variables with one index have in common. Two statics have the same name, and up to
version 10 any two variables have the same name and are of one kind, `self` apart. -/
structure SlotsAgree (v : Version) (names names' : List Symbol) : Prop where
  static : 2 ≤ names.length → 2 ≤ names'.length → names.getLast? = names'.getLast?
  shared : v.number ≤ 10 → NotSelf names → NotSelf names' →
    names.getLast? = names'.getLast? ∧ (names.length = 1 ↔ names'.length = 1)

theorem SlotsAgree.refl (v : Version) (names : List Symbol) : SlotsAgree v names names :=
  ⟨fun _ _ => rfl, fun _ _ _ => ⟨rfl, Iff.rfl⟩⟩

theorem SlotsAgree.symm (h : SlotsAgree v names names') : SlotsAgree v names' names where
  static hlen hlen' := (h.static hlen' hlen).symm
  shared hv hself hself' := (h.shared hv hself' hself).imp Eq.symm Iff.symm

section

variable {o : Options} {sources : Sources} {depth : Nat} {p : Program} {source : String}
  {script : Script}

/-- In every frame of a compiled script, the names of every variable other than `self` say what its
index stands for. Whatever writes a variable leaves a frame in which it stands for just that. -/
theorem compile_addresses (h : p.compile o sources depth source = .ok script) :
    (∀ f ∈ script.frame.preorder, ∀ k line reach names index,
      f.code[k]? = some ⟨line, .variable reach names index⟩ → NotSelf names →
      f.Addressed o.version k names index) ∧
    (∀ name loc, Addresses (readName o.version name loc)) ∧
    (∀ name loc declares, Addresses (pushName o.version name loc declares)) ∧
    (∀ x line, Addresses (readTemporary o.version x line)) ∧
    (∀ reach parts loc, Addresses (member o.version reach parts loc)) ∧
    ∀ loc, Addresses (selfValue o.version loc) := by
  refine ⟨fun f hf k line reach names index hget hself => ?_, .readName, .pushName, .readTemporary,
    .member, .selfValue⟩
  obtain ⟨enclosing, isRoot, d0, d, hfresh, hnamed, rfl⟩ := Program.made_of_compile h hf
  rw [Draft.finish, Array.getElem?_toList] at hget
  obtain ⟨m, hbefore, hafter, -, hmoment, haddress⟩ :=
    hnamed.addressed hfresh.noted (by simp [hfresh.code]) hget
  exact .of_moment hfresh hbefore.leads hafter.leads hmoment haddress hself

/-- `var x = 1; y = x; var f = function () { return x + y; };` -/
def mixedVariables : Program where
  body := [
    .declare {} [⟨{}, some (.ident {} "x"), some (.literal {} (.int 1))⟩],
    .expression {} (.assign {} .assign (.ident {} "y") (.ident {} "x")),
    .declare {} [⟨{}, some (.ident {} "f"), some (.function {} ⟨none, [], .stmt (.block {} [
      .returnValue {} (some (.binary {} .add (.ident {} "x") (.ident {} "y")))])⟩)⟩]]

theorem mixedVariables_addressed : ∃ script,
    mixedVariables.compile {} noSources 0 "main" = .ok script ∧
    script.frame.preorder.map Frame.accesses =
      [[(["x"], 1), (["x"], 1), (["y", "y"], 0), (["x"], 1), (["f"], 2)],
        [(["x"], -1), (["y", "y"], 0)]] ∧
    ∀ f ∈ script.frame.preorder, ∀ k line reach names index,
      f.code[k]? = some ⟨line, .variable reach names index⟩ → NotSelf names →
      f.Addressed .latestCommon k names index := by
  exact exists_ok_and (by decide +kernel) fun script h => (compile_addresses h).1

/-- In every frame of a compiled script, variables with one index that is not negative agree. -/
theorem compile_slots_unrecycled (h : p.compile o sources depth source = .ok script) :
    ∀ f ∈ script.frame.preorder, ∀ (i : Nat) line line' reach reach' names names',
      ⟨line, .variable reach names i⟩ ∈ f.code → ⟨line', .variable reach' names' i⟩ ∈ f.code →
      SlotsAgree o.version names names' := by
  intro f hf i line line' reach reach' names names' hmem hmem'
  obtain ⟨enclosing, isRoot, d0, d, hfresh, hnamed, rfl⟩ := Program.made_of_compile h hf
  -- What was written earlier is compared with what was written later.
  have hordered : ∀ {j j' : Nat} {line line' reach reach' names names'}, j < j' →
      d.code[j]? = some ⟨line, .variable reach names i⟩ →
      d.code[j']? = some ⟨line', .variable reach' names' i⟩ →
      SlotsAgree o.version names names' := by
    intro j j' line line' reach reach' names names' hlt hj hj'
    obtain ⟨m, m', hstart, hbetween, haddress, haddress'⟩ :=
      hnamed.addressed_two hfresh.noted (by simp [hfresh.code]) hlt hj hj'
    have hedits := Draft.Leads.edits hbetween
    have hall := Draft.Leads.edits (hstart.trans hbetween)
    refine ⟨haddress.getLast?_eq haddress' hedits, fun hv => ?_⟩
    exact haddress.shared haddress' hedits (hall.shares (hfresh.shares (Version.has_of_ten hv rfl)))
      (Version.has_of_ten hv rfl)
  obtain ⟨k, hk⟩ := List.mem_iff_getElem?.1 hmem
  obtain ⟨k', hk'⟩ := List.mem_iff_getElem?.1 hmem'
  rw [Draft.finish, Array.getElem?_toList] at hk hk'
  rcases Nat.lt_trichotomy k k' with hlt | rfl | hlt
  · exact hordered hlt hk hk'
  · cases hk.symm.trans hk'
    exact .refl _ _
  · exact (hordered hlt hk' hk).symm

theorem mixedVariables_unrecycled : ∃ script,
    mixedVariables.compile { version := ⟨10, by decide⟩ } noSources 0 "main" = .ok script ∧
    script.frame.preorder.map Frame.accesses =
      [[(["x"], 0), (["y", "y"], 1), (["x"], 0), (["f"], 2), (["x"], 0)],
        [(["x"], -1), (["y", "y"], 1)]] ∧
    ∀ f ∈ script.frame.preorder, ∀ (i : Nat) line line' reach reach' names names',
      ⟨line, .variable reach names i⟩ ∈ f.code → ⟨line', .variable reach' names' i⟩ ∈ f.code →
      SlotsAgree ⟨10, by decide⟩ names names' := by
  exact exists_ok_and (by decide +kernel) fun script h => compile_slots_unrecycled h

end

end Adhoc
