import Adhoc.Proofs.Control
import Adhoc.Proofs.FrameExits
import Adhoc.Proofs.Soundness

namespace Adhoc

open List Draft Session

variable {n : Regime} {s t r : Session} {c c' : Scope} {cs : List Scope} {h : Known} {k : Nat}
  {D E : Trail} {js js' ks ks' : List Nat} {ins : Instruction} {depth : Depth} {f : String}

/-- How a program is lowered: how deep includes are followed, and whether blocks log what is thrown
in them. -/
structure Regime where
  depth : Nat
  logs : Bool

structure Session.Sound (s : Session) : Prop where
  table : s.symbols.Proper
  frame : s.frame.Sound s.symbols
  tidy : s.frame.sketch.Tidy
  /-- The first scope of a frame is a block. -/
  base : ∀ kind ∈ (s.frame.scopes.map Scope.kind).getLast?, kind = .block

namespace Session

/-- Includes are looked for in the folder, or may be. -/
def Looks (s : Session) (f : String) : Prop := s.includeFolder = none ∨ s.includeFolder = some f

/-- A folder that includes may be looked for in, if the trail lies ahead. -/
def Finds (D : Trail) (s : Session) (f : String) : Prop :=
  s.includeFolder = some f ∨ s.includeFolder = none ∧
    ∃ name, (name = s.frame.sourceName ∨ name ∈ D.names) ∧ f = Path.parent name

/-- Includes are nested deeper than they are followed. -/
def Blames (n : Regime) (D : Trail) (s : Session) : Prop := ∃ f, s.Finds D f ∧ .nests n.depth ∈ D f

theorem Finds.mono (h : s.Finds D f) (hD : D.names ⊆ E.names) : s.Finds E f := by
  refine h.imp_right fun ⟨hn, name, hname, hf⟩ => ⟨hn, name, ?_, hf⟩
  exact hname.imp_right fun h => hD h

theorem Blames.mono (h : s.Blames n D) (hD : D ≤ E) : s.Blames n E := by
  obtain ⟨f, hf, hn⟩ := h
  exact ⟨f, hf.mono fun _ ⟨g, hg⟩ => ⟨g, hD g hg⟩, hD f hn⟩

end Session

/-- Every open loop has more jumps round it exactly if one of the jumps goes to it. -/
def Rounds (es : Set Slip) : List Scope → List Scope → Prop
  | [], [] => True
  | c :: cs, c' :: cs' => c.continues.length ≤ c'.continues.length ∧
    (c.continues.length < c'.continues.length ↔
      ∃ label, .leaves label ∈ es ∧ c.kind.catches label = true) ∧
    Rounds (Slip.past c.kind es) cs cs'
  | _, _ => False

namespace Rounds

variable {es es' : Set Slip} {a b c : List Scope}

theorem refl (h : ∀ label, .leaves label ∉ es) (a : List Scope) : Rounds es a a := by
  induction a generalizing es with
  | nil => trivial
  | cons x a ih =>
    refine ⟨le_rfl, ⟨fun hlt => absurd hlt (Nat.lt_irrefl _), ?_⟩,
      ih fun label hl => h label hl.1⟩
    rintro ⟨label, hl, -⟩
    exact absurd hl (h label)

theorem trans (hk : a.map Scope.kind = b.map Scope.kind) (h : Rounds es a b) (h' : Rounds es' b c) :
    Rounds (es ∪ es') a c := by
  induction a generalizing es es' b c with
  | nil =>
    cases b with
    | nil => cases c <;> trivial
    | cons => cases hk
  | cons x a ih =>
    cases b with
    | nil => cases hk
    | cons y b =>
      cases c with
      | nil => cases h'
      | cons z c =>
        simp only [map_cons, List.cons.injEq] at hk
        obtain ⟨hle, hlt, hrest⟩ := h
        obtain ⟨hle', hlt', hrest'⟩ := h'
        rw [← hk.1] at hlt' hrest'
        refine ⟨Nat.le_trans hle hle', ?_, ?_⟩
        · simp only [Set.mem_union, or_and_right, exists_or, ← hlt, ← hlt']
          omega
        · rw [show Slip.past x.kind (es ∪ es') = Slip.past x.kind es ∪ Slip.past x.kind es' from
            Set.ext fun e => or_and_right]
          exact ih hk.2 hrest hrest'

theorem note {label : Option String} {x : Scope} (hx : x.kind.catches label = true)
    (ha : ∀ y ∈ a, y.kind.catches label = false) : Rounds {.leaves label}
      (a ++ x :: b) (a ++ { x with continues := x.continues ++ [k] } :: b) := by
  induction a with
  | nil =>
    refine ⟨by simp, ⟨fun _ => ⟨label, rfl, hx⟩, fun _ => by simp⟩, refl ?_ b⟩
    rintro label' ⟨hl, hc⟩
    rw [Slip.leaves.inj (Set.mem_singleton_iff.1 hl)] at hc
    exact absurd hx (Bool.eq_false_iff.1 (hc label rfl))
  | cons y a ih =>
    have hy := ha y (by simp)
    refine ⟨le_rfl, ⟨fun hlt => absurd hlt (Nat.lt_irrefl _), ?_⟩, ?_⟩
    · rintro ⟨label', hl, hc⟩
      rw [Slip.leaves.inj (Set.mem_singleton_iff.1 hl), hy] at hc
      cases hc
    · have hpast : Slip.past y.kind {.leaves label} = {.leaves label} := by
        refine Set.ext fun e => ⟨fun he => he.1, fun he => ⟨he, fun label' hl => ?_⟩⟩
        rw [Set.mem_singleton_iff.1 he] at hl
        rw [← Slip.leaves.inj hl, hy]
      rw [hpast]
      exact ih fun z hz => ha z (by simp [hz])

theorem congr (h : Rounds es a b)
    (hb : b.map (fun x => x.continues.length) = c.map fun x => x.continues.length) :
    Rounds es a c := by
  induction a generalizing es b c with
  | nil =>
    cases b with
    | nil =>
      cases c with
      | nil => trivial
      | cons => cases hb
    | cons => cases h
  | cons x a ih =>
    cases b with
    | nil => cases h
    | cons y b =>
      cases c with
      | nil => cases hb
      | cons z c =>
        simp only [map_cons, List.cons.injEq] at hb
        obtain ⟨hle, hlt, hrest⟩ := h
        exact ⟨hb.1 ▸ hle, hb.1 ▸ hlt, ih hrest hb.2⟩

theorem of_leaves (h : Rounds es a b) (hes : ∀ label, .leaves label ∈ es ↔ .leaves label ∈ es') :
    Rounds es' a b := by
  induction a generalizing es es' b with
  | nil => cases b <;> exact h
  | cons x a ih =>
    cases b with
    | nil => exact h
    | cons y b =>
      obtain ⟨hle, hlt, hrest⟩ := h
      refine ⟨hle, hlt.trans (exists_congr fun label => and_congr_left fun _ => hes label), ?_⟩
      exact ih hrest fun label => and_congr_left fun _ => hes label

end Rounds

/-- What a run keeps that leaves the trail. The construct at hand holds the jumps `js` before it and `js'`
after it. Only at its top the frame may come to a return that nothing goes past. -/
structure RunInvariant (n : Regime) (D : Trail) (js js' : List Nat) (s t : Session) : Prop where
  lists : ∀ x, s.symbols.Lists x → t.symbols.Lists x
  size : s.frame.code.size ≤ t.frame.code.size
  old : ∀ k < s.frame.code.size, k ∉ js → t.frame.code[k]? = s.frame.code[k]?
  held : ∀ k ∈ js', k ∈ js ∨ s.frame.code.size ≤ k
  marks : Forall₂ (Mark.Grows False s.frame.code.size) s.frame.marks t.frame.marks
  slots : s.frame.slots.Extends t.frame.slots
  locals : ∀ x ∈ t.frame.top.locals, x ∈ s.frame.top.locals ∨ s.frame.slots.localIndex? x = none
  stays : s.frame.Stays t.frame
  folder : t.includeFolder = s.includeFolder ∨
    s.includeFolder = none ∧ ∃ f, t.includeFolder = some f ∧ s.Finds D f
  source : t.frame.sourceName = s.frame.sourceName ∨ t.frame.sourceName ∈ D.names
  rounds : ∀ f, t.Looks f → Rounds (D f) s.frame.scopes t.frame.scopes
  balance : ∃ n, t.frame.loose + s.frame.noted + js.length =
    s.frame.loose + t.frame.noted + js'.length + n ∧ ∀ f, t.Looks f → (0 < n ↔ .strays ∈ D f)
  returns : t.frame.returnsAtTop = true → s.frame.returnsAtTop = true ∨ s.frame.scopes.length ≤ 1
  exits : n.logs = false → s.frame.Exits js → t.frame.Exits js'

theorem Draft.marks_kinds (d : Draft) : d.marks.map Mark.kind = d.scopes.map Scope.kind :=
  map_map

theorem Draft.kinds_of_bare (d : Draft) : d.bare.map Scope.kind = d.scopes.map Scope.kind := by
  simp [Draft.bare, Scope.bare]

namespace RunInvariant

variable {js1 : List Nat}

theorem looks (h : RunInvariant n D js js' s t) (ht : t.Looks f) : s.Looks f := by
  rcases h.folder with hf | ⟨hs, -⟩
  · rwa [Session.Looks, hf] at ht
  · exact .inl hs

theorem kinds (h : RunInvariant n D js js' s t) :
    s.frame.scopes.map Scope.kind = t.frame.scopes.map Scope.kind := by
  rw [← kinds_of_bare, ← kinds_of_bare, h.stays.kinds]

theorem length (h : RunInvariant n D js js' s t) : s.frame.scopes.length = t.frame.scopes.length := by
  simpa using congrArg List.length h.kinds

theorem scopes_ne (h : RunInvariant n D js js' s t) (hs : s.frame.scopes ≠ []) : t.frame.scopes ≠ [] := by
  intro ht
  have := h.kinds
  rw [ht, map_nil, map_eq_nil_iff] at this
  exact hs this

theorem finds (h : RunInvariant n D js js' s r) (hf : r.Finds E f) : s.Finds (D ⊔ E) f := by
  have hnames : ∀ {name}, name = r.frame.sourceName ∨ name ∈ E.names →
      name = s.frame.sourceName ∨ name ∈ (D ⊔ E).names := by
    rw [Trail.names_sup]
    rintro name (rfl | hn)
    · exact h.source.imp_right .inl
    · exact .inr (.inr hn)
  rcases hf with hr | ⟨hr, name, hname, rfl⟩
  · rcases h.folder with hs | ⟨-, g, hg, hfinds⟩
    · exact .inl (hs ▸ hr)
    · obtain rfl := Option.some.inj (hg.symm.trans hr)
      exact hfinds.mono (by simp [Trail.names_sup])
  · rcases h.folder with hs | ⟨-, g, hg, -⟩
    · exact .inr ⟨hs ▸ hr, name, hnames hname, rfl⟩
    · rw [hr] at hg
      cases hg

theorem blames (h : RunInvariant n D js js' s r) (hb : r.Blames n E) : s.Blames n (D ⊔ E) := by
  obtain ⟨f, hf, hn⟩ := hb
  exact ⟨f, h.finds hf, .inr hn⟩

theorem trans (h : RunInvariant n D js js1 s r) (h' : RunInvariant n E js1 js' r t) :
    RunInvariant n (D ⊔ E) js js' s t where
  lists x hx := h'.lists x (h.lists x hx)
  size := Nat.le_trans h.size h'.size
  old k hk hn := by
    have hheld : k ∉ js1 := fun hm => (h.held k hm).elim hn (Nat.not_le.2 hk)
    rw [h'.old k (Nat.lt_of_lt_of_le hk h.size) hheld, h.old k hk hn]
  held k hk := by
    rcases h'.held k hk with hk | hk
    · exact h.held k hk
    · exact .inr (Nat.le_trans h.size hk)
  marks := Mark.Grows.forall₂_trans h.size h.marks h'.marks
  slots := h.slots.trans h'.slots
  locals x hx := by
    rcases h'.locals x hx with hx | hx
    · exact h.locals x hx
    · exact .inr (h.slots.localIndex?_none hx)
  stays := h.stays.trans h'.stays
  folder := by
    rcases h'.folder with hr | ⟨hr, f, hf, hfinds⟩
    · refine (h.folder.imp fun hs => hr.trans hs) ?_
      rintro ⟨hs, f, hf, hfinds⟩
      exact ⟨hs, f, hr.trans hf, hfinds.mono (by simp [Trail.names_sup])⟩
    · refine .inr ⟨?_, f, hf, h.finds hfinds⟩
      rcases h.folder with hs | ⟨hs, -⟩
      · exact hs ▸ hr
      · exact hs
  source := by
    rw [Trail.names_sup]
    rcases h'.source with hr | hr
    · exact hr ▸ h.source.imp_right .inl
    · exact .inr (.inr hr)
  rounds f hf := (h.rounds f (h'.looks hf)).trans h.kinds (h'.rounds f hf)
  balance := by
    obtain ⟨n, hn, hstray⟩ := h.balance
    obtain ⟨m, hm, hstray'⟩ := h'.balance
    refine ⟨n + m, by omega, fun f hf => ?_⟩
    rw [Trail.mem_sup, ← hstray f (h'.looks hf), ← hstray' f hf]
    omega
  returns ht := by
    rcases h'.returns ht with hr | hr
    · exact h.returns hr
    · exact .inr (h.length ▸ hr)
  exits hl hs := h'.exits hl (h.exits hl hs)

theorem rehold (h : RunInvariant n D js js' s t) (hold : ∀ k ∈ js, k ∈ ks)
    (hheld : ∀ k ∈ ks', k ∈ ks ∨ k ∈ js')
    (hlength : ks.length + js'.length = ks'.length + js.length)
    (hexits : n.logs = false → s.frame.Exits ks → t.frame.Exits ks') : RunInvariant n D ks ks' s t :=
  { h with
    old := fun k hk hn => h.old k hk fun hm => hn (hold k hm)
    held := fun k hk => (hheld k hk).elim .inl fun hk => (h.held k hk).imp_left (hold k)
    balance := by
      obtain ⟨n, hn, hstray⟩ := h.balance
      exact ⟨n, by omega, hstray⟩
    exits := hexits }

theorem frame (h : RunInvariant n D [] [] s t) (js : List Nat)
    (hreturns : t.frame.returnsAtTop = true → s.frame.returnsAtTop = true) : RunInvariant n D js js s t := by
  refine h.rehold (fun _ hk => nomatch hk) (fun _ => .inl) rfl fun hl hs => ?_
  have ht := h.exits hl (hs.mono fun _ hk => nomatch hk)
  refine hs.advance hreturns (fun k hk _ => h.old k hk not_mem_nil) (fun k hk => ?_) ht.bounded
    ht.frames
  exact hk.imp_right (Sketch.notes_of_grows h.marks)

theorem perm (h : RunInvariant n D js js1 s t) (hp : js1.Perm js') : RunInvariant n D js js' s t :=
  h.rehold (fun _ => id) (fun _ hk => .inr (hp.mem_iff.2 hk)) (by rw [hp.length_eq, Nat.add_comm])
    fun hl hs => (h.exits hl hs).mono fun _ => hp.mem_iff.2

theorem permLeft (h : RunInvariant n D js js' s t) (hp : js.Perm ks) : RunInvariant n D ks js' s t :=
  h.rehold (fun _ => hp.mem_iff.1) (fun _ => .inr) (by rw [hp.length_eq, Nat.add_comm])
    fun hl hs => h.exits hl (hs.mono fun _ => hp.mem_iff.1)

theorem settled (h : RunInvariant n D js js' s t) (hf : s.includeFolder = some f)
    (hsource : t.frame.sourceName = s.frame.sourceName)
    (hleaves : ∀ label, .leaves label ∈ D f ↔ .leaves label ∈ E f)
    (hstrays : .strays ∈ D f ↔ .strays ∈ E f) : RunInvariant n E js js' s t := by
  have hlooks : ∀ g, t.Looks g → g = f := by
    intro g hg
    rcases h.looks hg with hs | hs
    · exact absurd (hf.symm.trans hs) (by simp)
    · exact Option.some.inj (hs.symm.trans hf)
  refine { h with folder := ?_, source := .inl hsource, rounds := fun g hg => ?_, balance := ?_ }
  · exact .inl (h.folder.resolve_right fun hn => absurd (hf.symm.trans hn.1) (by simp))
  · exact hlooks g hg ▸ (h.rounds f (hlooks g hg ▸ hg)).of_leaves hleaves
  · obtain ⟨n, hn, hstray⟩ := h.balance
    exact ⟨n, hn, fun g hg => hlooks g hg ▸ (hstray f (hlooks g hg ▸ hg)).trans hstrays⟩

theorem unnoted (h : RunInvariant n D js js' s t) (hk : k ∉ s.frame.sketch.notes)
    (hlt : k < s.frame.code.size) : k ∉ t.frame.sketch.notes := by
  intro hk'
  rcases Sketch.notes_of_grows h.marks hk' with hk' | hk'
  · exact hk hk'
  · exact Nat.not_le.2 hlt hk'

end RunInvariant

/-- What the construct at hand knows of: symbols in the table, locals with a slot, places in the
code, that it stands in a scope inside another, and that no return is at the top of the frame. -/
structure Known where
  names : List Symbol := []
  locals : List Symbol := []
  places : List Nat := []
  deep : Prop := False
  fresh : Prop := False

/-- What was learned is also known. -/
@[simp]
def Known.add (h new : Known) : Known :=
  ⟨new.names ++ h.names, new.locals ++ h.locals, new.places ++ h.places, h.deep, h.fresh⟩

/-- The state is sound and as the construct at hand knows it. The jumps that it holds wait for their
target and are noted nowhere. -/
structure Session.Holds (h : Known) (js : List Nat) (s : Session) : Prop extends s.Sound where
  names : ∀ x ∈ h.names, s.symbols.Lists x
  locals : ∀ x ∈ h.locals, s.frame.slots.hasLocal x = true
  places : ∀ k ∈ h.places, k ≤ s.frame.code.size
  deep : h.deep → 2 ≤ s.frame.scopes.length
  fresh : h.fresh → s.frame.returnsAtTop = false
  nodup : js.Nodup
  unnoted : ∀ k ∈ js, k ∉ s.frame.sketch.notes
  waits : ∀ k ∈ js, ∃ ins, s.frame.code[k]? = some ins ∧ ins.operation.isUnaimed = true

namespace Session.Holds

theorem of_fresh {fresh : Prop} (hs : s.Sound) (hf : fresh → s.frame.returnsAtTop = false) :
    s.Holds { fresh := fresh } [] :=
  ⟨hs, fun _ hx => (nomatch hx), fun _ hx => (nomatch hx), fun _ hk => (nomatch hk), False.elim, hf,
    .nil, fun _ hk => (nomatch hk), fun _ hk => nomatch hk⟩

theorem of_sound (hs : s.Sound) : s.Holds {} [] := of_fresh hs False.elim

theorem lt (hs : s.Holds h js) (hk : k ∈ js) : k < s.frame.code.size := by
  obtain ⟨ins, hi, -⟩ := hs.waits k hk
  exact (Array.getElem?_eq_some_iff.1 hi).1

theorem names_after (hs : s.Holds h js) (hp : RunInvariant n D ks ks' s t) :
    ∀ x ∈ h.names, t.symbols.Lists x := fun x hx => hp.lists x (hs.names x hx)

theorem locals_after (hs : s.Holds h js) (hp : RunInvariant n D ks ks' s t) :
    ∀ x ∈ h.locals, t.frame.slots.hasLocal x = true := by
  intro x hx
  obtain ⟨i, hi⟩ := Option.isSome_iff_exists.1 (hs.locals x hx)
  rw [Slots.hasLocal, hp.slots.localIndex? hi]
  rfl

theorem after (hs : s.Holds h js) (hp : RunInvariant n D ks ks' s t) (ht : t.Sound)
    (hreturns : h.fresh → t.frame.returnsAtTop = true → s.frame.returnsAtTop = true) (hn : js'.Nodup)
    (hnew : ∀ k ∈ js', k ∈ js → t.frame.code[k]? = s.frame.code[k]?)
    (hwaits : ∀ k ∈ js', k ∉ js → k ∉ t.frame.sketch.notes ∧
      ∃ ins, t.frame.code[k]? = some ins ∧ ins.operation.isUnaimed = true) : t.Holds h js' := by
  refine ⟨ht, hs.names_after hp, hs.locals_after hp, fun k hk => Nat.le_trans (hs.places k hk) hp.size,
    fun hd => hp.length ▸ hs.deep hd, fun hf => Bool.eq_false_iff.2 fun ht =>
      absurd (hreturns hf ht) (Bool.eq_false_iff.1 (hs.fresh hf)), hn, fun k hk => ?_, fun k hk => ?_⟩ <;>
    by_cases hmem : k ∈ js
  · exact hp.unnoted (hs.unnoted k hmem) (hs.lt hmem)
  · exact (hwaits k hk hmem).1
  · rw [hnew k hk hmem]
    exact hs.waits k hmem
  · exact (hwaits k hk hmem).2

theorem forget {new : Known} (hs : s.Holds (h.add new) js) : s.Holds h js :=
  { hs with
    names := fun x hx => hs.names x (mem_append_right _ hx)
    locals := fun x hx => hs.locals x (mem_append_right _ hx)
    places := fun k hk => hs.places k (mem_append_right _ hk) }

theorem perm (hs : s.Holds h js) (hp : js.Perm ks) : s.Holds h ks :=
  { hs with
    nodup := hp.nodup_iff.1 hs.nodup
    unnoted := fun k hk => hs.unnoted k (hp.mem_iff.2 hk)
    waits := fun k hk => hs.waits k (hp.mem_iff.2 hk) }

theorem framed (hs : s.Holds h js) (hp : RunInvariant n D [] [] s t) (ht : t.Sound)
    (hreturns : h.fresh → t.frame.returnsAtTop = true → s.frame.returnsAtTop = true) : t.Holds h js :=
  hs.after hp ht hreturns hs.nodup (fun k _ hk => hp.old k (hs.lt hk) (not_mem_nil))
    fun _ hk hn => absurd hk hn

end Session.Holds

/-- Nothing happens to the code, and the scopes note no jumps. -/
structure Session.Idles (s t : Session) : Prop where
  table : t.symbols.Proper
  lists : ∀ x, s.symbols.Lists x → t.symbols.Lists x
  code : t.frame.code = s.frame.code
  marks : t.frame.marks = s.frame.marks
  source : t.frame.source = s.frame.source
  parameters : t.frame.parameters = s.frame.parameters
  change : ∃ ds, s.frame.Change t.symbols.Lists t.frame ds
  folder : t.includeFolder = s.includeFolder
  returns : t.frame.returnsAtTop = s.frame.returnsAtTop

namespace Session.Idles

theorem of_frame (ht : t.symbols.Proper) (hl : ∀ x, s.symbols.Lists x → t.symbols.Lists x)
    (hf : t.frame = s.frame) (hi : t.includeFolder = s.includeFolder) : s.Idles t :=
  ⟨ht, hl, by rw [hf], by rw [hf], by rw [hf], by rw [hf],
    ⟨[], .none (by rw [hf]) (by rw [hf]) (by rw [hf])⟩, hi, by rw [hf]⟩

theorem refl (hs : s.symbols.Proper) : s.Idles s := of_frame hs (fun _ hx => hx) rfl rfl

theorem sketch (h : s.Idles t) : t.frame.sketch = s.frame.sketch := by
  rw [Draft.sketch, Draft.sketch, h.code, h.marks]

theorem sound (h : s.Idles t) (hs : s.Sound) : t.Sound := by
  obtain ⟨x, hx, hl⟩ := hs.frame.source
  have hkinds : t.frame.scopes.map Scope.kind = s.frame.scopes.map Scope.kind := by
    rw [← marks_kinds, ← marks_kinds, h.marks]
  refine ⟨h.table, ⟨⟨x, h.source.trans hx, h.lists x hl⟩, ?_, ?_, ?_⟩, h.sketch ▸ hs.tidy,
    hkinds ▸ hs.base⟩
  · rw [h.parameters]
    exact fun x hx => h.lists x (hs.frame.parameters x hx)
  · have hold : ∀ x ∈ s.frame.captured, t.symbols.Lists x :=
      fun x hx => h.lists x (hs.frame.captured x hx)
    obtain ⟨ds, hc⟩ := h.change
    cases hc with
    | none _ _ hc | addLocal _ _ _ _ _ hc | addStatic _ _ _ _ _ hc | addMember _ _ _ _ hc
    | addStatics _ _ hc => exact hc ▸ hold
    | capture hx _ _ _ _ hc =>
      rw [hc]
      intro y hy
      rcases mem_append.1 hy with hy | hy
      · exact hold y hy
      · exact mem_singleton.1 hy ▸ hx
  · rw [h.code]
    exact fun ins hins => (hs.frame.code ins hins).mono h.lists

theorem runInvariant (h : s.Idles t) (js : List Nat) : RunInvariant n ⊥ js js s t where
  lists := h.lists
  size := by rw [h.code]
  old k _ _ := by rw [h.code]
  held _ hk := .inl hk
  marks := by
    rw [h.marks]
    exact forall₂_same.2 fun m _ => .refl m
  slots := by
    obtain ⟨ds, hc⟩ := h.change
    exact hc.extends_slots
  locals x hx := by
    obtain ⟨ds, hc⟩ := h.change
    exact (hc.noted_local hx).imp_right And.left
  stays := by
    obtain ⟨ds, hc⟩ := h.change
    exact hc.stays
  folder := .inl h.folder
  source := .inl (by rw [Draft.sourceName, Draft.sourceName, h.source])
  rounds f _ := by
    have hrefl : Rounds ((⊥ : Trail) f) s.frame.scopes s.frame.scopes :=
      .refl (fun _ => Trail.notMem_bot) _
    refine hrefl.congr ?_
    have hlength : ∀ d : Draft, d.scopes.map (fun x => x.continues.length) =
        d.marks.map fun m => m.continues.length := by
      intro d
      rw [Draft.marks, map_map]
      rfl
    rw [hlength, hlength, h.marks]
  balance := by
    refine ⟨0, ?_, fun f _ => iff_of_false (Nat.lt_irrefl 0) fun hs => hs⟩
    rw [Draft.loose, Draft.loose, Draft.noted, Draft.noted, h.sketch, h.code]
    omega
  returns ht := .inl (h.returns ▸ ht)
  exits _ hs := hs.congr h.code (fun ht => h.returns ▸ ht) fun k hk => h.sketch ▸ hk

theorem holds (hi : s.Idles t) (hs : s.Holds h js) : t.Holds h js :=
  hs.framed (hi.runInvariant (n := ⟨0, false⟩) []) (hi.sound hs.toSound) fun _ ht => hi.returns ▸ ht

end Session.Idles

namespace RunInvariant

theorem refl (s : Session) : RunInvariant n ⊥ [] [] s s where
  lists _ hx := hx
  size := le_rfl
  old _ _ _ := rfl
  held _ hk := nomatch hk
  marks := forall₂_same.2 fun m _ => .refl m
  slots := .refl _
  locals _ hx := .inl hx
  stays := .of_bare rfl
  folder := .inl rfl
  source := .inl rfl
  rounds f _ := .refl (fun _ => Trail.notMem_bot) _
  balance := ⟨0, by simp, fun f _ => iff_of_false (Nat.lt_irrefl 0) Trail.notMem_bot⟩
  returns := .inl
  exits _ hs := hs

theorem loose_push (d : Draft) (depth : Depth) (ins : Instruction) :
    Draft.loose (d.write ins depth) =
      d.loose + if ins.isLoose = true then 1 else 0 := by
  simp [Draft.loose, countP_append, countP_singleton]

theorem push (hheld : ∀ k ∈ js', k ∈ js ∨ k = s.frame.code.size)
    (hD : ∀ f label, .leaves label ∉ D f)
    (hbalance : ∃ n, (if ins.isLoose = true then 1 else 0) + js.length = js'.length + n ∧
      ∀ f, s.Looks f → (0 < n ↔ .strays ∈ D f))
    (htarget : ∀ kind t, ins.operation = .jump kind (some t) → t ≤ s.frame.code.size)
    (hframes : n.logs = false → ∀ f ∈ ins.frames, f.Returns) :
    RunInvariant n D js js' s
      (s.at (s.frame.write ins depth)) :=
  { refl (n := n) s with
    size := by simp [Session.at]
    old := fun k hk _ => by simp [Session.at, Array.getElem?_push, Nat.ne_of_lt hk]
    held := fun k hk => (hheld k hk).imp_right fun h => Nat.le_of_eq h.symm
    stays := .of_bare rfl
    folder := .inl rfl
    source := .inl rfl
    rounds := fun f _ => .refl (hD f) _
    balance := by
      obtain ⟨n, hn, hstray⟩ := hbalance
      refine ⟨n, ?_, hstray⟩
      rw [Session.at, loose_push]
      simp only [Draft.noted, Draft.sketch, Draft.marks, Sketch.notes]
      omega
    exits := fun hl hs => by
      refine hs.push rfl id (fun k hk => ?_) htarget (hframes hl)
      rcases hk with hk | hk
      · exact (hheld k hk).imp_right fun h => .inr (Nat.le_of_eq h.symm)
      · exact .inr (.inl hk) }

end RunInvariant

theorem Session.Sound.push (hs : s.Sound) (hins : ins.Sound s.symbols) :
    (s.at (s.frame.write ins depth)).Sound := by
  refine ⟨hs.table, ⟨hs.frame.source, hs.frame.parameters, hs.frame.captured, fun i hi => ?_⟩,
    hs.tidy.push ins, hs.base⟩
  rcases Array.mem_push.1 hi with hi | rfl
  · exact hs.frame.code i hi
  · exact hins

namespace RunInvariant

variable {Q : Trail}

theorem patch {target : Nat} (hs : s.Holds h (k :: js)) (htarget : target ≤ s.frame.code.size) :
    ∃ t, Emit.patch k target s = .ok ((), t) ∧ RunInvariant n ⊥ (k :: js) js s t ∧ t.Holds h js := by
  obtain ⟨⟨line, op⟩, hi, ho⟩ := hs.waits k (by simp)
  obtain ⟨kind, rfl⟩ := Operation.isUnaimed_iff.1 ho
  obtain ⟨hlt, hget⟩ := Array.getElem?_eq_some_iff.1 hi
  let d : Draft := { s.frame with code := s.frame.code.setIfInBounds k ⟨line, .jump kind (some target)⟩ }
  have hpatch : Emit.patch k target s = .ok ((), s.at d) :=
    Emit.onFrame_ok.2 ⟨_, by rw [Draft.patch, hi]; rfl, rfl⟩
  have hcode : ∀ i, i ≠ k → d.code[i]? =
      s.frame.code[i]? := fun i hik => Array.getElem?_setIfInBounds_ne (Ne.symm hik)
  have hcount : s.frame.loose = d.loose + 1 := by
    have hlist : k < s.frame.code.toList.length := hlt
    have hloose : Instruction.isLoose s.frame.code.toList[k] = true := by
      rw [Array.getElem_toList, hget]
      rfl
    have hpos : 0 < s.frame.loose := countP_pos_iff.2 ⟨_, getElem_mem hlist, hloose⟩
    have hset : d.loose =
        s.frame.loose - 1 := by
      simp only [d, Draft.loose, Array.toList_setIfInBounds]
      rw [countP_set hlist, if_pos hloose]
      simp [Instruction.isLoose, Operation.isUnaimed, Instruction.frames, Operation.frames]
    omega
  have hinvariant : RunInvariant n ⊥ (k :: js) js s (s.at d) :=
    { refl (n := n) s with
      size := by simp [d, Session.at]
      old := fun i _ hn => hcode i fun h => hn (by simp [h])
      held := fun i hi => .inl (by simp [hi])
      stays := .of_bare rfl
      balance := by
        refine ⟨0, ?_, fun f _ => iff_of_false (Nat.lt_irrefl 0) Trail.notMem_bot⟩
        rw [hcount, length_cons]
        simp only [Draft.noted, Draft.sketch, Draft.marks, Sketch.notes, Session.at, d]
        omega
      exits := fun _ hs => hs.patch htarget }
  have hk := hs.unnoted k (by simp)
  refine ⟨_, hpatch, hinvariant, hs.after hinvariant ⟨hs.table, ⟨hs.frame.source, hs.frame.parameters,
    hs.frame.captured, fun ins hins => ?_⟩, ⟨fun i hi => ?_, hs.tidy.nodup, hs.tidy.breaks,
    hs.tidy.continues⟩, hs.base⟩ (fun _ => id) (nodup_cons.1 hs.nodup).2 (fun i hi _ => ?_) fun i hi hn => ?_⟩
  · rw [← Array.mem_toList_iff] at hins
    simp only [Session.at, d, Array.toList_setIfInBounds] at hins
    rcases mem_or_eq_of_mem_set hins with hins | rfl
    · exact hs.frame.code ins (Array.mem_toList_iff.1 hins)
    · exact .of_symbols line rfl rfl fun x hx => (not_mem_nil hx).elim
  · obtain ⟨line, hl⟩ := hs.tidy.noted i hi
    exact ⟨line, (hcode i fun h => hk (h ▸ hi)).trans hl⟩
  · exact hcode i fun h => (nodup_cons.1 hs.nodup).1 (h ▸ hi)
  · exact absurd (mem_cons_of_mem _ hi) hn

theorem drop (hp : RunInvariant n D js (ks ++ js') s t) (hQ : ∀ f e, e ∈ Q f → e = .strays)
    (hks : ∀ f, t.Looks f → (ks ≠ [] ↔ .strays ∈ Q f)) : RunInvariant n (D ⊔ Q) js js' s t :=
  { hp with
    held := fun k hk => hp.held k (mem_append_right _ hk)
    folder := hp.folder.imp_right fun ⟨hs, f, hf, hfinds⟩ =>
      ⟨hs, f, hf, hfinds.mono (by simp [Trail.names_sup])⟩
    source := hp.source.imp_right fun hn => by
      rw [Trail.names_sup]
      exact .inl hn
    rounds := fun f hf => by
      have hrefl : Rounds (Q f) t.frame.scopes t.frame.scopes :=
        .refl (fun label hl => nomatch hQ f _ hl) _
      exact (hp.rounds f hf).trans hp.kinds hrefl
    balance := by
      obtain ⟨n, hn, hstray⟩ := hp.balance
      refine ⟨n + ks.length, by rw [length_append] at hn; omega, fun f hf => ?_⟩
      rw [Trail.mem_sup, ← hstray f hf, ← hks f hf, ← length_pos_iff]
      omega
    exits := fun hl hs => (hp.exits hl hs).mono fun _ => mem_append_right _ }

end RunInvariant

/-- The draft with one more jump, and with the given scopes. -/
def Draft.jumped (d : Draft) (depth : Depth) (line : UInt32) (scopes : List Scope) : Draft :=
  { d.write ⟨line, .jump .always none⟩ depth with scopes := scopes }

theorem RunInvariant.note {before after : List Scope} (line : UInt32) (depth : Depth) (hs : s.Sound)
    (hscopes : s.frame.scopes = before ++ c :: after)
    (hgrows : c.mark.Grows False s.frame.code.size c'.mark) (hbare : c'.bare = c.bare)
    (hperm : c'.mark.notes.Perm (s.frame.code.size :: c.mark.notes))
    (hb : c.kind.takesBreak = false → c'.breaks = [])
    (hc : c.kind.isLoop = false → c'.continues = [])
    (hrounds : ∀ f, Rounds (D f) s.frame.scopes (before ++ c' :: after))
    (hstrays : ∀ f, .strays ∉ D f) :
    RunInvariant n D [] [] s (s.at (s.frame.jumped depth line (before ++ c' :: after))) ∧
      (s.at (s.frame.jumped depth line (before ++ c' :: after))).Sound := by
  let d := s.frame.jumped depth line (before ++ c' :: after)
  have hmarks : s.frame.sketch.marks = before.map Scope.mark ++ c.mark :: after.map Scope.mark := by
    simp [Draft.sketch, Draft.marks, hscopes]
  have hsketch : d.sketch =
      ⟨s.frame.sketch.code.push ⟨line, .jump .always none⟩,
        before.map Scope.mark ++ c'.mark :: after.map Scope.mark⟩ := by
    simp [d, Draft.jumped, Draft.sketch, Draft.marks]
  have hgrow : Sketch.Grows False [] s.frame.sketch d.sketch :=
    hsketch ▸ .note hs.tidy hmarks hgrows hperm hb hc
  have hbares : d.bare = s.frame.bare := by
    simp [d, Draft.jumped, Draft.bare, hscopes, hbare]
  have hloose : d.loose = s.frame.loose + 1 := by
    simp [d, Draft.jumped, Draft.loose, countP_append, Instruction.isLoose, Operation.isUnaimed]
  have hnoted : d.noted = s.frame.noted + 1 := by
    have := hperm.length_eq
    rw [Draft.noted, Draft.noted, hsketch, Sketch.notes, Sketch.notes, hmarks]
    simp only [flatMap_append, flatMap_cons, length_append,
      length_cons] at this ⊢
    omega
  have hbase : ∀ kind ∈ ((before ++ c' :: after).map Scope.kind).getLast?, kind = .block := by
    rw [show (before ++ c' :: after).map Scope.kind = s.frame.scopes.map Scope.kind by
      rw [← s.frame.kinds_of_bare, ← hbares, kinds_of_bare]
      rfl]
    exact hs.base
  refine ⟨?_, hs.table, ⟨hs.frame.source, hs.frame.parameters, hs.frame.captured, fun i hi => ?_⟩,
    hgrow.tidy, hbase⟩
  · exact { RunInvariant.refl (n := n) s with
      size := by simp [Session.at, Draft.jumped]
      old := fun k hk _ => by
        simp [Session.at, Draft.jumped, Array.getElem?_push, Nat.ne_of_lt hk]
      marks := hgrow.marks
      locals := fun x hx => .inl (top_congr hbares ▸ hx)
      stays := .of_bare hbares
      folder := .inl rfl
      source := .inl rfl
      rounds := fun f _ => hrounds f
      balance := by
        refine ⟨0, ?_, fun f _ => iff_of_false (Nat.lt_irrefl 0) (hstrays f)⟩
        rw [show (s.at d).frame = d from rfl, hloose, hnoted]
        simp only [length_nil]
        omega
      exits := fun _ hs => hs.push rfl id
        (fun k hk => hk.imp_right (Sketch.notes_of_grows hgrow.marks)) (fun _ _ h => by cases h)
        fun _ hf => by cases hf }
  · rcases Array.mem_push.1 hi with hi | rfl
    · exact hs.frame.code i hi
    · exact .of_symbols line rfl rfl fun x hx => (not_mem_nil hx).elim

/-- The state without its innermost scope. -/
def Session.outer (s : Session) : Session := s.at { s.frame with scopes := s.frame.scopes.tail }

/-- The state with another innermost scope. -/
def Session.withTop (s : Session) (c : Scope) : Session :=
  s.at { s.frame with scopes := c :: s.frame.scopes.tail }

/-- The innermost scope was opened by the construct at hand, which holds the jumps that are noted in
it along with those in `js`. -/
structure Inside (n : Regime) (kind : ScopeKind) (D : Trail) (js : List Nat) (s u : Session) (c : Scope) :
    Prop where
  scopes : u.frame.scopes = c :: u.frame.scopes.tail
  kind : c.kind = kind
  locals : ∀ x ∈ c.locals, s.frame.slots.localIndex? x = none
  bare : u.outer.frame.bare = s.frame.bare
  runInvariant : RunInvariant n D [] (c.mark.notes ++ js) s u.outer

/-- How many more jumps go round the loop. -/
def Scope.Turned (es : Set Slip) (c c' : Scope) : Prop :=
  c.continues.length ≤ c'.continues.length ∧ (c.continues.length < c'.continues.length ↔
    ∃ label, .leaves label ∈ es ∧ c.kind.catches label = true)

theorem Session.noted_outer (h : s.frame.scopes = c :: cs) :
    s.frame.noted = c.mark.notes.length + s.outer.frame.noted := by
  simp [Draft.noted, Draft.sketch, Draft.marks, Sketch.notes, Session.outer, Session.at, h]

theorem Session.mem_notes (h : s.frame.scopes = c :: cs) :
    k ∈ s.frame.sketch.notes ↔ k ∈ c.mark.notes ∨ k ∈ s.outer.frame.sketch.notes := by
  simp [Draft.sketch, Draft.marks, Sketch.notes, Session.outer, Session.at, h]

theorem RunInvariant.outer (hp : RunInvariant n E js js' r t) (hr : r.frame.scopes = c :: cs) :
    ∃ c', t.frame.scopes = c' :: t.frame.scopes.tail ∧ c'.kind = c.kind ∧
      (∀ x ∈ c'.locals, x ∈ c.locals ∨ r.frame.slots.localIndex? x = none) ∧
      t.outer.frame.bare = r.outer.frame.bare ∧ (∀ f, t.Looks f → c.Turned (E f) c') ∧
      RunInvariant n (E.past c.kind) (c.mark.notes ++ js) (c'.mark.notes ++ js') r.outer t.outer := by
  have hmarks := hp.marks
  rw [Draft.marks, Draft.marks, hr] at hmarks
  cases ht : t.frame.scopes with
  | nil =>
    rw [ht] at hmarks
    cases hmarks
  | cons c' cs' =>
    rw [ht, map_cons, map_cons, forall₂_cons] at hmarks
    have hbare : t.outer.frame.bare = r.outer.frame.bare := by
      have := hp.stays.around
      simpa [Draft.bare, Session.outer, Session.at, hr, ht] using this
    have hrounds : ∀ f, t.Looks f → c.Turned (E f) c' ∧ Rounds (Slip.past c.kind (E f)) cs cs' := by
      intro f hf
      have := hp.rounds f hf
      rw [hr, ht] at this
      exact ⟨⟨this.1, this.2.1⟩, this.2.2⟩
    refine ⟨c', rfl, hmarks.1.kind, fun x hx => ?_, hbare, fun f hf => (hrounds f hf).1, ?_⟩
    · have htop : ∀ {d : Draft} {b : Scope} {bs : List Scope}, d.scopes = b :: bs →
          d.top.locals = b.locals := by
        intro d b bs hd
        simp [Draft.top, Draft.bare, hd, Scope.bare]
      have := hp.locals x (by rwa [htop ht])
      rwa [htop hr] at this
    · exact { hp with
        old := fun k hk hn => hp.old k hk fun hm => hn (mem_append_right _ hm)
        held := fun k hk => by
          rcases mem_append.1 hk with hk | hk
          · exact (hmarks.1.notes hk).imp_left (mem_append_left _)
          · exact (hp.held k hk).imp_left (mem_append_right _)
        marks := by
          simpa [Draft.marks, Session.outer, Session.at, hr, ht] using hmarks.2
        locals := fun x hx => .inl (top_congr hbare ▸ hx)
        stays := .of_bare hbare
        folder := by
          refine hp.folder.imp_right ?_
          rintro ⟨hs, f, hf, hfinds⟩
          exact ⟨hs, f, hf, Session.Finds.mono hfinds (Trail.names_past ▸ subset_rfl)⟩
        source := by
          rw [Trail.names_past]
          exact hp.source
        rounds := fun f hf => by
          simp only [Session.outer, Session.at, hr, ht, tail_cons]
          exact (hrounds f hf).2
        balance := by
          obtain ⟨n, hn, hstray⟩ := hp.balance
          refine ⟨n, ?_, fun f hf => (hstray f hf).trans ?_⟩
          · rw [noted_outer hr, noted_outer ht] at hn
            have hloose : r.outer.frame.loose = r.frame.loose := rfl
            have hloose' : t.outer.frame.loose = t.frame.loose := rfl
            simp only [length_append]
            omega
          · exact ⟨fun h => ⟨h, fun label hl => by cases hl⟩, fun h => h.1⟩
        returns := fun ht => (hp.returns ht).imp_right fun h =>
          Nat.le_trans (by simp [Session.outer, Session.at]) h
        exits := fun hl hs => by
          have hinner : r.frame.Exits js := hs.congr rfl id fun k hk => by
            rw [mem_notes hr] at hk
            rw [mem_append, or_assoc]
            exact or_left_comm.1 hk
          refine (hp.exits hl hinner).congr rfl id fun k hk => ?_
          rw [mem_notes ht]
          rw [mem_append, or_assoc] at hk
          exact or_left_comm.1 hk }

namespace Inside

variable {kind : ScopeKind} {Q : Trail} {u : Session}

theorem opened (s : Session) (kind : ScopeKind) :
    Inside n kind ⊥ [] s (s.open kind) { kind := kind } :=
  ⟨rfl, rfl, fun _ hx => (nomatch hx), rfl, .refl s⟩

theorem run (hi : Inside n kind D js s u c) (hp : RunInvariant n E js js' u t) :
    ∃ c', Inside n kind (D ⊔ E.past kind) js' s t c' ∧ ∀ f, t.Looks f → c.Turned (E f) c' := by
  obtain ⟨c', hscopes, hkind, hlocals, hbare, hturned, hinvariant⟩ := hp.outer hi.scopes
  refine ⟨c', ⟨hscopes, hkind.trans hi.kind, fun x hx => ?_, hbare.trans hi.bare,
    hi.runInvariant.trans (hi.kind ▸ hinvariant)⟩, hturned⟩
  rcases hlocals x hx with hx | hx
  · exact hi.locals x hx
  · exact hi.runInvariant.slots.localIndex?_none hx

theorem take (hi : Inside n kind D js s u c) (hu : u.Holds h js) (hbare : c'.bare = c.bare)
    (hperm : c.mark.notes.Perm (ks ++ c'.mark.notes)) (hb : ∀ k ∈ c'.breaks, k ∈ c.breaks)
    (hc : ∀ k ∈ c'.continues, k ∈ c.continues) :
    Inside n kind D (ks ++ js) s (u.withTop c') c' ∧ (u.withTop c').Holds h (ks ++ js) := by
  have hkind : c'.kind = c.kind := (Scope.mk.inj hbare).1
  have hlocals : c'.locals = c.locals := (Scope.mk.inj hbare).2.1
  have hmarks : u.frame.sketch.marks = c.mark :: u.frame.scopes.tail.map Scope.mark := by
    rw [← map_cons, ← hi.scopes]
    rfl
  have hnotes : u.frame.sketch.notes.Perm (ks ++ (u.withTop c').frame.sketch.notes) := by
    rw [Sketch.notes, hmarks, flatMap_cons]
    refine (hperm.append_right _).trans ?_
    rw [append_assoc]
    exact List.Perm.refl _
  have hbase : ∀ kind ∈ ((u.withTop c').frame.scopes.map Scope.kind).getLast?, kind = .block := by
    have hbase := hu.base
    rw [hi.scopes, map_cons, ← hkind] at hbase
    exact hbase
  have hdeep : h.deep → 2 ≤ (u.withTop c').frame.scopes.length := by
    intro hd
    have hlength := hu.deep hd
    rw [hi.scopes] at hlength
    exact hlength
  have hnodup := hnotes.nodup_iff.1 hu.tidy.nodup
  have hnoted : ∀ {k}, k ∈ ks → k ∈ u.frame.sketch.notes := fun hk =>
    hnotes.mem_iff.2 (mem_append_left _ hk)
  refine ⟨⟨rfl, hkind.trans hi.kind, hlocals ▸ hi.locals, hi.bare, hi.runInvariant.perm ?_⟩,
    ⟨hu.table, ⟨hu.frame.source, hu.frame.parameters, hu.frame.captured, hu.frame.code⟩,
      hu.tidy.take hmarks hnotes hkind hb hc, hbase⟩, hu.names, hu.locals, hu.places,
    hdeep, hu.fresh, nodup_append.2 ⟨hnodup.of_append_left, hu.nodup, ?_⟩, fun k hk => ?_, fun k hk => ?_⟩
  · refine (hperm.append_right js).trans ?_
    rw [append_assoc]
    exact perm_append_comm_assoc _ _ _
  · rintro k hk _ hk' rfl
    exact hu.unnoted k hk' (hnoted hk)
  · rcases mem_append.1 hk with hk | hk
    · exact disjoint_of_nodup_append hnodup hk
    · exact fun hm => hu.unnoted k hk (hnotes.mem_iff.2 (mem_append_right _ hm))
  · rcases mem_append.1 hk with hk | hk
    · obtain ⟨line, hl⟩ := hu.tidy.noted k (hnoted hk)
      exact ⟨_, hl, rfl⟩
    · exact hu.waits k hk

theorem close {slots : Slots} (hi : Inside n kind D [] s u c) (hu : u.Sound) (hb : c.breaks = [])
    (hQ : ∀ f e, e ∈ Q f → e = .strays)
    (hstray : ∀ f, u.Looks f → (0 < c.continues.length ↔ .strays ∈ Q f))
    (hslots : s.frame.slots.Extends slots) :
    RunInvariant n (D ⊔ Q) [] [] s (u.at { u.frame with slots := slots, scopes := u.frame.scopes.tail }) ∧
      (u.at { u.frame with slots := slots, scopes := u.frame.scopes.tail }).Sound := by
  have hnotes : c.mark.notes = c.continues := by
    rw [Mark.notes, Scope.mark, hb, nil_append]
  have hdrop : RunInvariant n (D ⊔ Q) [] [] s u.outer := by
    refine RunInvariant.drop (hnotes ▸ hi.runInvariant) hQ fun f hf => ?_
    rw [← hstray f hf, length_pos_iff]
  have hmarks : u.frame.sketch.marks = c.mark :: u.frame.scopes.tail.map Scope.mark := by
    rw [← map_cons, ← hi.scopes]
    rfl
  refine ⟨{ hdrop with
      slots := hslots
      stays := ⟨hdrop.stays.around, hdrop.stays.kinds⟩
      exits := fun hl hs => (hdrop.exits hl hs).congr rfl id fun _ => id }, hu.table,
    ⟨hu.frame.source, hu.frame.parameters, hu.frame.captured, hu.frame.code⟩, hu.tidy.leave hmarks,
    fun kind hlast => hu.base kind ?_⟩
  rw [hi.scopes, map_cons, List.getLast?_cons]
  exact congrArg (fun last => some (last.getD c.kind)) (Option.mem_def.1 hlast)

end Inside

end Adhoc
