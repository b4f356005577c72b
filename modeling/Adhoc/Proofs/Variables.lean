import Adhoc.Proofs.Following

namespace Adhoc

open Emit List Draft Slots Deeds

variable {x full : Symbol} {names parts : List Symbol} {name stem : String} {v : Version}
  {folder : Option String}

namespace Draft

variable {known : Symbol → Prop} {d e : Draft} {i : Int} {access : Access} {rest : List Scope}
  {c : Scope}

/-- Only slots, scopes and captured variables of the draft are changed. -/
def Resolves (d e : Draft) : Prop :=
  e = { d with slots := e.slots, scopes := e.scopes, captured := e.captured }

theorem Resolves.remains (h : d.Resolves e) : d.Remains e := by
  rw [h]
  exact ⟨rfl, rfl, rfl, rfl⟩

theorem Resolves.code (h : d.Resolves e) : e.code = d.code := by rw [h]

theorem Resolves.moments (h : d.Resolves e) : e.moments = d.moments := by rw [h]

theorem bare_addLocal (h : d.scopes = c :: rest) (he : e.scopes = c.addLocal x :: rest) :
    d.bare = c.bare :: rest.map Scope.bare ∧ e.bare = c.bare.addLocal x :: rest.map Scope.bare := by
  rw [bare, bare, h, he]
  exact ⟨rfl, rfl⟩

theorem bare_addStatic (h : d.scopes = c :: rest) (he : e.scopes = c.addStatic x :: rest) :
    d.bare = c.bare :: rest.map Scope.bare ∧ e.bare = c.bare.addStatic x :: rest.map Scope.bare := by
  rw [bare, bare, h, he]
  exact ⟨rfl, rfl⟩

theorem useLocal_ok (hx : known x) (h : useLocal x d = .ok (i, e)) :
    d.Resolves e ∧ (∃ n : Nat, i = n ∧ e.slots.localIndex? x = some n) ∧
      (d.Change known e [] ∨ d.slots.hasLocal x = false ∧ d.Change known e [.owns x.name]) := by
  simp only [useLocal, findOrAddLocal] at h
  cases hi : d.slots.localIndex? x with
  | some n =>
    simp only [hi, Bool.false_eq_true, if_false, Except.ok.injEq, Prod.mk.injEq] at h
    obtain ⟨rfl, rfl⟩ := h
    exact ⟨rfl, ⟨n, rfl, hi⟩, .inl (.none rfl rfl rfl)⟩
  | none =>
    simp only [hi, if_true] at h
    split at h
    · cases h
    · rename_i c rest hs
      simp only [Except.ok.injEq, Prod.mk.injEq] at h
      obtain ⟨rfl, rfl⟩ := h
      obtain ⟨hd, he⟩ := bare_addLocal (x := x) (e := { d with
        slots := (d.slots.addLocal (some x)).2, scopes := c.addLocal x :: rest }) hs rfl
      exact ⟨rfl, ⟨_, rfl, addLocal_localIndex? hi⟩,
        .inr ⟨by simp [hasLocal, hi], .addLocal hx hi rfl hd he rfl⟩⟩

theorem useLocal_slots (h : useLocal x d = .ok (i, e)) :
    d.Resolves e ∧ e.slots = (d.slots.findOrAddLocal x).2 ∧ e.captured = d.captured := by
  simp only [useLocal] at h
  split at h
  · split at h <;> cases h
    exact ⟨rfl, rfl, rfl⟩
  · cases h
    exact ⟨rfl, rfl, rfl⟩

theorem useStatic_ok (hx : known x) (h : useStatic x d = .ok (i, e)) :
    d.Resolves e ∧ (∃ n : Nat, i = n ∧ e.slots.staticIndex? x = some n) ∧
      d.Change known e [] ∧ e.slots.local? = d.slots.local? := by
  simp only [useStatic, findOrAddStatic] at h
  cases hi : d.slots.staticIndex? x with
  | some n =>
    simp only [hi, Bool.false_eq_true, if_false, Except.ok.injEq, Prod.mk.injEq] at h
    obtain ⟨rfl, rfl⟩ := h
    exact ⟨rfl, ⟨n, rfl, hi⟩, .none rfl rfl rfl, rfl⟩
  | none =>
    simp only [hi, if_true] at h
    split at h
    · cases h
    · rename_i c rest hs
      simp only [Except.ok.injEq, Prod.mk.injEq] at h
      obtain ⟨rfl, rfl⟩ := h
      obtain ⟨hd, he⟩ := bare_addStatic (x := x) (e := { d with
        slots := (d.slots.addStatic (some x)).2, scopes := c.addStatic x :: rest }) hs rfl
      exact ⟨rfl, ⟨_, rfl, addStatic_staticIndex? hi⟩, .addStatic hx hi rfl hd he rfl,
        addStatic_local? _⟩

theorem captures_localIndex? (h : d.captures x = true) (hx : x ∉ d.captured) :
    d.slots.localIndex? x = .none := by
  unfold captures at h
  split at h
  · cases h
  · simp only [Bool.and_eq_true, Bool.or_eq_true, Bool.not_eq_true', contains_eq_mem,
      decide_eq_true_eq, hx, or_false] at h
    simpa [hasLocal] using h.2.1

theorem capture_ok (hx : known x) (hc : d.captures x = true) (h : capture x d = .ok (i, e)) :
    d.Resolves e ∧ (∃ k, i = Int.negSucc k ∧ e.captured[k]? = some x) ∧ d.Change known e [] := by
  simp only [capture] at h
  split at h <;> rename_i hmem
  · simp only [Except.ok.injEq, Prod.mk.injEq] at h
    obtain ⟨rfl, rfl⟩ := h
    refine ⟨rfl, ⟨_, rfl, ?_⟩, .none rfl rfl rfl⟩
    have hmem : x ∈ d.captured := by simpa using hmem
    rw [getElem?_eq_getElem (idxOf_lt_length_of_mem hmem), getElem_idxOf]
  · simp only [Except.ok.injEq, Prod.mk.injEq] at h
    obtain ⟨rfl, rfl⟩ := h
    have hmem : x ∉ d.captured := by simpa using hmem
    refine ⟨rfl, ⟨_, rfl, by simp⟩, .capture hx hc hmem ?_ rfl rfl⟩
    simp [findOrAddLocal, captures_localIndex? hc hmem]

/-- How a name is resolved. -/
inductive Outcome (x : Symbol) (access : Access) (d e : Draft) : Int → Prop
  | captured {k : Nat} : access ≠ .declare → d.captures x = true → e.captured[k]? = some x →
    Outcome x access d e (Int.negSucc k)
  | declared {n : Nat} : access = .declare → e.slots.localIndex? x = some n → Outcome x access d e n
  | local {n : Nat} : access ≠ .declare → access ≠ .readStatic → d.captures x = false →
    e.slots.localIndex? x = some n → Outcome x access d e n
  /-- Where locals are looked for, there is none. -/
  | static {n : Nat} : access ≠ .declare → d.captures x = false → e.slots.staticIndex? x = some n →
    (access ≠ .readStatic → e.slots.hasLocal x = false) → Outcome x access d e n

theorem resolve_ok (hx : known x) (haccess : access ≠ .writeStatic)
    (h : resolve x access d = .ok (i, e)) :
    d.Resolves e ∧ Outcome x access d e i ∧
      (d.Change known e [] ∨ access = .declare ∧ d.Change known e [.owns x.name]) := by
  let resolved : Prop := d.Resolves e ∧ Outcome x access d e i ∧
    (d.Change known e [] ∨ access = .declare ∧ d.Change known e [.owns x.name])
  have hlocal : useLocal x d = .ok (i, e) → access ≠ .declare → access ≠ .readStatic →
      d.captures x = false → d.slots.hasLocal x = true → resolved := by
    intro h hne hne' hc hl
    obtain ⟨hr, ⟨n, rfl, hn⟩, hchange⟩ := useLocal_ok hx h
    refine ⟨hr, .local hne hne' hc hn, .inl (hchange.resolve_right fun hn => ?_)⟩
    rw [hl] at hn
    cases hn.1
  have hstatic : useStatic x d = .ok (i, e) → access ≠ .declare → d.captures x = false →
      (access ≠ .readStatic → d.slots.hasLocal x = false) → resolved := by
    intro h hne hc hl
    obtain ⟨hr, ⟨n, rfl, hn⟩, hchange, hsame⟩ := useStatic_ok hx h
    refine ⟨hr, .static hne hc hn fun ha => ?_, .inl hchange⟩
    rw [← hl ha, hasLocal, hasLocal, localIndex?_congr hsame]
  have hcapture : capture x d = .ok (i, e) → access ≠ .declare → d.captures x = true → resolved := by
    intro h hne hc
    obtain ⟨hr, ⟨k, rfl, hk⟩, hchange⟩ := capture_ok hx hc h
    exact ⟨hr, .captured hne hc hk, .inl hchange⟩
  cases access <;> simp only [resolve] at h
  case declare =>
    obtain ⟨hr, ⟨n, rfl, hn⟩, hchange⟩ := useLocal_ok hx h
    exact ⟨hr, .declared rfl hn, hchange.imp id fun hc => ⟨rfl, hc.2⟩⟩
  case writeStatic => exact absurd rfl haccess
  all_goals
    split at h <;> rename_i hc
    · exact hcapture h (by simp) hc
    have hc : d.captures x = false := by simpa using hc
  case readStatic => exact hstatic h (by simp) hc (by simp)
  all_goals
    split at h <;> rename_i hl
    · exact hlocal h (by simp) (by simp) hc hl
    · exact hstatic h (by simp) hc fun _ => by simpa using hl

/-- A variable is written as its name is resolved. A local is written with its name alone. -/
theorem Outcome.writes (reach : Reach) (line : UInt32) (depth : Depth) (hr : d.Resolves e)
    (ho : Outcome x access d e i) (hlast : names.getLast? = some x)
    (hlocal : access ≠ .readStatic → e.slots.hasLocal x = true → names = [x]) :
    ∃ fs, d.Writes (e.write ⟨line, .variable reach names i⟩ depth) fs ∧
      ∀ f ∈ fs, access = .declare ∧ f = .owns x.name := by
  have hcode : e.code.push ⟨line, .variable reach names i⟩ =
    d.code.push ⟨line, .variable reach names i⟩ := by rw [hr.code]
  cases ho with
  | captured _ hc hk => exact ⟨[], .captured hc hk hlast hcode, fun _ hf => nomatch hf⟩
  | declared ha hn =>
    have hlocal := hlocal (by simp [ha]) (by simp [hasLocal, hn])
    subst hlocal
    exact ⟨_, .own hn hcode, fun f hf => ⟨ha, mem_singleton.1 hf⟩⟩
  | «local» _ hs hc hn =>
    have hlocal := hlocal hs (by simp [hasLocal, hn])
    subst hlocal
    exact ⟨[], .local hc hn hcode, fun _ hf => nomatch hf⟩
  | static _ hc hn => exact ⟨[], .static hc hn hlast hcode, fun _ hf => nomatch hf⟩

theorem Outcome.namesLocals (reach : Reach) (line : UInt32) (depth : Depth) (hr : d.Resolves e)
    (ho : Outcome x access d e i) (hlast : names.getLast? = some x)
    (hsingle : names = [x] → access ≠ .readStatic ∧ (x.name = "self" ∨ e.slots.hasLocal x = true)) :
    d.NamesLocals (e.write ⟨line, .variable reach names i⟩ depth) := by
  refine .of_push (show e.code.push _ = _ by rw [hr.code]) fun reach' y n heq => ?_
  obtain ⟨rfl, rfl, hindex⟩ := Operation.variable.inj heq
  obtain rfl : y = x := by simpa using hlast
  cases ho with
  | captured => cases hindex
  | declared _ hn | «local» _ _ _ hn => exact .inl (Int.ofNat.inj hindex ▸ hn)
  | static _ _ _ hnone =>
    obtain ⟨haccess, hself⟩ := hsingle rfl
    refine .inr ⟨hself.resolve_right fun hl => ?_, .inr (hnone haccess)⟩
    rw [hnone haccess] at hl
    cases hl

end Draft

namespace Emit

variable {s t : Session} {line : UInt32} {reach : Reach} {use : Access}

theorem resolved_step {d : Draft} {es fs : List Deed} {depth : Depth} {code : Array Instruction}
    {moments : Array Slots} (hr : s.frame.Resolves d) (hchange : s.frame.Change s.symbols.Knows d es)
    (hwrites : s.frame.Writes { d with depth := depth, code := code, moments := moments } fs)
    (hnamed : s.frame.NamesLocals { d with depth := depth, code := code, moments := moments })
    (hrecords : s.frame.Records { d with depth := depth, code := code, moments := moments }) :
    Step (es ++ fs) s (s.at { d with depth := depth, code := code, moments := moments }) := by
  have hremains := hr.remains
  refine ⟨⟨.refl _, fun _ hf => hf⟩, hremains.trans ⟨rfl, rfl, rfl, rfl⟩,
    ⟨es, fs, rfl, ?_, hwrites⟩, hnamed, hrecords⟩
  cases hchange with
  | none h1 h2 h3 => exact .none h1 h2 h3
  | addLocal h1 h2 h3 h4 h5 h6 => exact .addLocal h1 h2 h3 h4 h5 h6
  | addStatic h1 h2 h3 h4 h5 h6 => exact .addStatic h1 h2 h3 h4 h5 h6
  | addMember h1 h2 h3 h4 h5 => exact .addMember h1 h2 h3 h4 h5
  | addStatics h1 h2 h3 => exact .addStatics h1 h2 h3
  | capture h1 h2 h3 h4 h5 h6 => exact .capture h1 h2 h3 h4 h5 h6

theorem resolved_course {index : Int} {r : Session} (hx : s.symbols.Knows x)
    (huse : use ≠ .writeStatic) (h : onFrame (resolve x use) s = .ok (index, r))
    (hlast : names.getLast? = some x)
    (hlocal : use ≠ .readStatic → r.frame.slots.hasLocal x = true → names = [x])
    (hsingle : names = [x] →
      use ≠ .readStatic ∧ (x.name = "self" ∨ r.frame.slots.hasLocal x = true))
    (hemit : emit v (.variable reach names index) line r = .ok ((), t)) :
    ∃ ds, Course v ds s t ∧ (∀ d ∈ ds, use = .declare ∧ d = .owns x.name) ∧
      s.frame.Brings v 0 t.frame := by
  obtain ⟨d, hd, rfl⟩ := onFrame_ok.1 h
  obtain ⟨depth, rfl⟩ := emit_ok hemit
  obtain ⟨hr, ho, hchange⟩ := resolve_ok hx huse hd
  obtain ⟨fs, hwrites, hfs⟩ := ho.writes reach line depth hr hlast hlocal
  have hnamed := ho.namesLocals reach line depth hr hlast hsingle
  have hrecords : s.frame.Records (d.write ⟨line, .variable reach names index⟩ depth) :=
    .inr ⟨by simp [hr.code], by simp [hr.moments]⟩
  have hbrings (e : Draft) (he : e.code = d.code.push ⟨line, .variable reach names index⟩) :
      s.frame.Brings v 0 e := .variable (hr.code ▸ he)
  rcases hchange with hchange | ⟨ha, hchange⟩
  · exact ⟨_, .of_step (resolved_step hr hchange hwrites hnamed hrecords), by simpa using hfs, hbrings _ rfl⟩
  · refine ⟨_, .of_step (resolved_step hr hchange hwrites hnamed hrecords), fun e he => ?_, hbrings _ rfl⟩
    rcases mem_append.1 he with he | he
    · exact ⟨ha, mem_singleton.1 he⟩
    · exact hfs e he

theorem access_course (hx : s.symbols.Knows x) (huse : use ≠ .writeStatic)
    (hread : use ≠ .readStatic) (h : access v reach x use line s = .ok ((), t)) :
    ∃ ds, Course v ds s t ∧ (∀ d ∈ ds, use = .declare ∧ d = .owns x.name) ∧
      s.frame.Brings v 0 t.frame := by
  obtain ⟨index, r, h1, h⟩ := bind_ok.1 h
  obtain ⟨names, r', h2, h3⟩ := bind_ok.1 h
  obtain ⟨f, r'', hf, hn⟩ := bind_ok.1 h2
  obtain ⟨rfl, rfl⟩ := frame_ok.1 hf
  obtain ⟨rfl, rfl⟩ := pure_ok.1 hn
  refine resolved_course hx huse h1 ?_ (fun _ hl => ?_) (fun hn => ?_) h3
  · split <;> rfl
  · simp [isStatic, hl]
  · refine ⟨hread, ?_⟩
    by_contra hn'
    simp only [not_or, Bool.not_eq_true] at hn'
    simp [isStatic, hn'] at hn

end Emit

namespace Follows

theorem owned_mono {α : Type} {names names' : Set String} {x : Emit α}
    (hx : Follows v folder (.owned names) x) (h : names ⊆ names') :
    Follows v folder (.owned names') x := hx.mono (Within.owned h)

theorem readName (name : String) (loc : Loc) : Follows v folder 0 (readName v name loc) := by
  refine looked fun x _ s r t _ hx h => ?_
  obtain ⟨ds, hc, hds, hbrings⟩ := access_course hx (by simp) (by simp) h
  refine ⟨ds, hc, fun d hd => ?_, fun _ hd => (nomatch hd), hbrings⟩
  cases (hds d hd).1

theorem pushName (name : String) (loc : Loc) (declares : Bool) :
    Follows v folder (.bound declares [name]) (pushName v name loc declares) := by
  refine looked fun x hname s r t _ hx h => ?_
  obtain ⟨ds, hc, hds, hbrings⟩ := access_course hx (by split <;> simp) (by split <;> simp) h
  refine ⟨ds, hc, .owned hbrings fun d hd => ?_⟩
  obtain ⟨huse, rfl⟩ := hds d hd
  refine ⟨_, ⟨?_, name, by simp, hname⟩, rfl⟩
  by_contra hdeclares
  simp [hdeclares] at huse

theorem declareName (name : String) : Follows v folder (.bound true [name]) (declareName name) := by
  refine looked fun x hname s r t _ hx h => ?_
  obtain ⟨index, h⟩ := discard_ok.1 h
  obtain ⟨d, hd, rfl⟩ := onFrame_ok.1 h
  obtain ⟨hr, -, hchange⟩ := resolve_ok hx (by simp) hd
  have hstep : ∀ es, s.frame.Change s.symbols.Knows d es → Step (es ++ []) s (s.at d) :=
    fun es hchange => resolved_step hr hchange (.none hr.code) (.of_size (hr.code ▸ le_rfl))
      (.rest hr.code hr.moments)
  rcases hchange with hchange | ⟨-, hchange⟩
  · exact ⟨_, .of_step (hstep _ hchange), .owned (.of_code hr.code) fun _ hd => nomatch hd⟩
  · refine ⟨_, .of_step (hstep _ hchange), .owned (.of_code hr.code) fun d hd => ?_⟩
    exact ⟨_, ⟨rfl, name, by simp, hname⟩, mem_singleton.1 hd⟩

theorem readTemporary (x : Symbol) (line : UInt32) :
    Follows v folder (.owned {x.name}) (readTemporary v x line) := by
  intro s r t _ h
  obtain ⟨index, r', h1, h2⟩ := bind_ok.1 h
  obtain ⟨d, hd, rfl⟩ := onFrame_ok.1 h1
  unfold localIndex at hd
  split at hd <;> cases hd
  obtain ⟨depth, rfl⟩ := emit_ok h2
  refine ⟨[.owns x.name], .of_step ?_,
    .owned (.variable rfl) fun d hd => ⟨_, rfl, mem_singleton.1 hd⟩⟩
  refine ⟨⟨.refl _, fun _ hf => hf⟩, ⟨rfl, rfl, rfl, rfl⟩,
    ⟨[], _, rfl, .none rfl rfl rfl, .own ‹_› rfl⟩, .of_push rfl fun reach y n heq => ?_, .write _ _ _⟩
  cases heq
  exact .inl ‹_›

theorem pushTemporary (loc : Loc) (h : Symbol.IsTemporary stem x.name) :
    Follows v folder (.temporaries stem) (Emit.pushName v x.name loc true) := by
  refine owned_mono (pushName _ _ _) ?_
  rintro name ⟨-, name', hmem, rfl⟩
  obtain rfl := mem_singleton.1 hmem
  exact h.canonical.symm ▸ h

theorem readsTemporary (line : UInt32) (h : Symbol.IsTemporary stem x.name) :
    Follows v folder (.temporaries stem) (Emit.readTemporary v x line) :=
  owned_mono (readTemporary x line) (by rintro _ rfl; exact h)

theorem splitPath_ok {s t : Session} (h : Emit.splitPath name s = .ok ((parts, full), t)) :
    t.symbols.Knows full ∧ parts ≠ [] := by
  obtain ⟨x, r, h1, h⟩ := bind_ok.1 h
  have hx := (symbol_ok h1).1
  have hplain : ∀ {r}, (Pure.pure ([x], x) : Emit (List Symbol × Symbol)) r = .ok ((parts, full), t) →
      r.symbols.Knows x → t.symbols.Knows full ∧ parts ≠ [] := by
    intro r h hx
    obtain ⟨hpair, rfl⟩ := pure_ok.1 h
    obtain ⟨rfl, rfl⟩ := Prod.mk.inj hpair
    exact ⟨hx, cons_ne_nil _ _⟩
  generalize name.splitOn "::" = l at h
  rcases l with _ | ⟨first, _ | ⟨second, rest⟩⟩
  · exact hplain h hx
  · exact hplain h hx
  · obtain ⟨names, r', h2, h3⟩ := bind_ok.1 h
    obtain ⟨hpair, rfl⟩ := pure_ok.1 h3
    obtain ⟨rfl, rfl⟩ := Prod.mk.inj hpair
    have hmap : Follows .latestCommon none 0 ((first :: second :: rest).mapM Emit.symbol) :=
      mapM _ fun _ _ => symbol _
    obtain ⟨ds, hc, -⟩ := hmap (fun _ hf => nomatch hf) h2
    refine ⟨hx.mono hc.widens.symbols, ?_⟩
    rw [mapM_cons] at h2
    obtain ⟨y, r1, -, h2⟩ := bind_ok.1 h2
    obtain ⟨ys, r2, -, h2⟩ := bind_ok.1 h2
    simp [(pure_ok.1 h2).1]

theorem member (reach : Reach) (parts : List String) (loc : Loc) :
    Follows v folder 0 (member v reach parts loc) := by
  intro s r t hs h
  obtain ⟨⟨names, full⟩, r1, h1, h⟩ := bind_ok.1 h
  obtain ⟨index, r2, h2, h3⟩ := bind_ok.1 h
  obtain ⟨ds, hc, hds⟩ := splitPath _ hs h1
  obtain ⟨es, hc', hes, hbrings⟩ :=
    resolved_course (splitPath_ok h1).1 (by simp) h2 (by simp) (by simp)
      (fun hn => absurd hn (by simp [(splitPath_ok h1).2])) h3
  refine ⟨_, hc.trans hc', ?_⟩
  rw [← add_zero (0 : Deeds)]
  exact hds.append ⟨fun d hd => (nomatch (hes d hd).1), fun _ hd => (nomatch hd), hbrings⟩

theorem selfValue (loc : Loc) : Follows v folder (.owned {"self"}) (selfValue v loc) := by
  refine own require fun _ => looked fun x hname s r t _ hx h => ?_
  obtain ⟨depth, rfl⟩ := emit_ok h
  have hself : x.name = "self" := hname
  refine ⟨[.owns x.name], .of_step ?_,
    .owned (.variable rfl) fun d hd => ⟨_, hself, mem_singleton.1 hd⟩⟩
  refine ⟨⟨.refl _, fun _ hf => hf⟩, ⟨rfl, rfl, rfl, rfl⟩,
    ⟨[], _, rfl, .none rfl rfl rfl, .self hself rfl⟩, .of_push rfl fun reach y n heq => ?_, .write _ _ _⟩
  obtain ⟨rfl, hy, hn⟩ := Operation.variable.inj heq
  obtain rfl := singleton_inj.1 hy
  exact .inr ⟨hself, .inl ⟨rfl, Int.ofNat.inj hn.symm⟩⟩

theorem addStatics (symbols : List (Option Symbol)) :
    Follows v folder 0 (onFrame (addStatics symbols)) := by
  intro s r t _ h
  obtain ⟨d, hd, rfl⟩ := onFrame_ok.1 h
  cases hd
  refine ⟨[], .of_step ?_, .nil (.of_code rfl)⟩
  exact ⟨⟨.refl _, fun _ hf => hf⟩, ⟨rfl, rfl, rfl, rfl⟩,
    ⟨[], [], rfl, .addStatics rfl rfl rfl, .none rfl⟩, .of_size le_rfl, .rest rfl rfl⟩

end Follows

theorem FollowsKnowing.addMember (hname : x.name = Symbol.canonical name) :
    FollowsKnowing v folder x (.members [name]) (addMember x) := by
  intro s r t _ hx h
  obtain ⟨d, hd, rfl⟩ := onFrame_ok.1 h
  unfold Draft.addMember at hd
  split at hd <;> cases hd
  rename_i c rest hs
  obtain ⟨hbare, hbare'⟩ := bare_addStatic (x := x) (e := { s.frame with
    slots := (s.frame.slots.addStatic (some x)).2, scopes := c.addStatic x :: rest }) hs rfl
  refine ⟨[.defines x.name], .of_step ?_, ?_⟩
  · exact ⟨⟨.refl _, fun _ hf => hf⟩, ⟨rfl, rfl, rfl, rfl⟩,
      ⟨_, [], rfl, .addMember hx rfl hbare hbare' rfl, .none rfl⟩, .of_size le_rfl, .rest rfl rfl⟩
  · rw [hname]
    exact ⟨by simp [members], by simp [members], .of_code rfl⟩

end Adhoc
