import Mathlib.Data.Set.Finite.Lattice
import Mathlib.Order.WellFounded
import Adhoc.Files.Program
import Adhoc.Proofs.SafeProgram

namespace Adhoc

open List Option

variable {α : Type} {v : Version} {lib : Library} {r : α → α → Prop} {folder : String} {l : List α}
  {p : Part}

/-- One part is another or lies in it, at any depth and also in the bodies of functions. -/
inductive Part.Contains (v : Version) : Part → Part → Prop
  | refl (p : Part) : Contains v p p
  | part {p q r : Part} : q ∈ p.parts v → Contains v q r → Contains v p r
  | body {p r : Part} {n : Node} : p.body? = some n → Contains v n.part r → Contains v p r

section

variable {E : Expr → Prop} {S : Stmt → Prop} {n : Node}

theorem Node.part_holds (h : n.Holds E S) : n.part.Holds E S := by
  cases n <;> exact h

/-- What holds of the direct parts of a statement holds of those that are lowered, if it holds of all
that lies in an expression. -/
theorem Stmt.parts_hold (hdown : ∀ e, E e → ∀ q ∈ e.parts v, q.Holds E S) (s : Stmt)
    (h : s.Parts E S) : ∀ q ∈ s.parts v, q.Holds E S := by
  intro q hq
  cases s with
  | function loc r =>
    simp only [Stmt.parts] at hq
    split at hq
    · obtain ⟨e, he, rfl⟩ := mem_map.1 hq
      exact h.1 e he
    · cases hq
  | forLoop loc init test update body =>
    simp only [Stmt.parts, List.mem_append, List.mem_map, mem_toList, List.mem_singleton] at hq
    obtain ((⟨m, hm, rfl⟩ | ⟨e, he, rfl⟩) | rfl) | ⟨e, he, rfl⟩ := hq
    · exact Node.part_holds (h.1 m hm)
    · exact h.2.1 e he
    · exact h.2.2.2
    · exact h.2.2.1 e he
  | foreach loc left right body =>
    simp only [Stmt.parts, mem_cons, not_mem_nil, or_false] at hq
    obtain rfl | rfl | rfl := hq
    · exact h.2.1
    · exact Node.part_holds h.1
    · exact h.2.2
  | declare loc ds =>
    simp only [Stmt.parts, mem_flatMap] at hq
    obtain ⟨d, hd, hq⟩ := hq
    have := h d hd
    unfold Declarator.parts at hq
    split at hq <;> grind [Part.Holds]
  | returnValue loc argument =>
    simp only [Stmt.parts, mem_flatMap, mem_toList] at hq
    obtain ⟨e, he, hq⟩ := hq
    unfold Expr.returnedParts at hq
    split at hq <;> simp only [mem_cons, not_mem_nil, or_false] at hq
    · rename_i loc op left right
      rcases hq with rfl | rfl
      · exact h _ he
      · refine hdown _ (h _ he) _ ?_
        simp only [Expr.parts]
        split <;> simp
    · exact hq ▸ h _ he
  | _ =>
    simp only [Stmt.Parts, Stmt.parts] at h hq
    grind [Part.Holds]

theorem Part.body_holds (hn : p.body? = some n) (he : ∀ e, p = .expr e → e.Parts E S)
    (hs : ∀ s, p = .stmt s → s.Parts E S) : n.Holds E S := by
  unfold Part.body? at hn
  split at hn
  · exact some.inj hn ▸ (he _ rfl).2
  · exact some.inj hn ▸ (he _ rfl).2
  · exact some.inj hn ▸ (he _ rfl).2
  · exact some.inj hn ▸ (hs _ rfl).2
  · split at hn
    · exact some.inj hn ▸ (hs _ rfl).2
    · cases hn
  · exact some.inj hn ▸ he _ rfl
  · cases hn

end

namespace Part

variable {q : Part}

theorem contains_iff : p.Contains v q ↔ q = p ∨ (∃ r ∈ p.parts v, r.Contains v q) ∨
    ∃ n, p.body? = some n ∧ n.part.Contains v q := by
  constructor
  · intro h
    cases h with
    | refl => exact .inl rfl
    | part hr h => exact .inr (.inl ⟨_, hr, h⟩)
    | body hn h => exact .inr (.inr ⟨_, hn, h⟩)
  · rintro (rfl | ⟨r, hr, h⟩ | ⟨n, hn, h⟩)
    · exact .refl _
    · exact .part hr h
    · exact .body hn h

theorem finite_of_parts (hparts : ∀ r ∈ p.parts v, {q | r.Contains v q}.Finite)
    (hbody : ∀ n, p.body? = some n → {q | n.part.Contains v q}.Finite) :
    {q | p.Contains v q}.Finite := by
  have hbodies : {q | ∃ n, p.body? = some n ∧ n.part.Contains v q}.Finite := by
    cases hb : p.body? with
    | none => simp
    | some n => simpa using hbody n hb
  refine ((Set.finite_singleton p).union
    (((p.parts v).finite_toSet.biUnion hparts).union hbodies)).subset fun q hq => ?_
  simpa [contains_iff (p := p)] using hq

theorem induct {P : Part → Prop} (v : Version)
    (h : ∀ p : Part, (∀ q ∈ p.parts v, P q) → (∀ n, p.body? = some n → P n.part) → P p)
    (p : Part) : P p := by
  let E : Expr → Prop := fun e => ∀ q, (Part.expr e).Contains v q → P q
  let S : Stmt → Prop := fun s => ∀ q, (Part.stmt s).Contains v q → P q
  have hdown : ∀ e, E e → ∀ q ∈ e.parts v, q.Holds E S := by
    intro e he q hq
    cases q <;> exact fun r hr => he r (.part hq hr)
  -- All that lies in the part has the property, then so has the part.
  have hcontains : ∀ p : Part, (∀ q ∈ p.parts v, q.Holds E S) →
      (∀ n, p.body? = some n → n.Holds E S) → ∀ q, p.Contains v q → P q := by
    intro p hparts hbody
    have hpart : ∀ q ∈ p.parts v, ∀ r, q.Contains v r → P r := fun q hq => by
      cases q <;> exact hparts _ hq
    have hnode : ∀ n, p.body? = some n → ∀ r, n.part.Contains v r → P r := fun n hn => by
      cases n <;> exact hbody _ hn
    intro q hq
    rcases contains_iff.1 hq with rfl | ⟨r, hr, hq⟩ | ⟨n, hn, hq⟩
    · exact h _ (fun q hq => hpart q hq q (.refl q)) fun n hn => hnode n hn n.part (.refl _)
    · exact hpart r hr q hq
    · exact hnode n hn q hq
  have hexpr : ∀ e, e.Parts E S → E e := fun e he =>
    hcontains _ (e.parts_hold he) fun n hn =>
      body_holds hn (fun _ h => by cases h; exact he) fun _ h => nomatch h
  have hstmt : ∀ s, s.Parts E S → S s := fun s hs =>
    hcontains _ (s.parts_hold hdown hs) fun n hn =>
      body_holds hn (fun _ h => nomatch h) fun _ h => by cases h; exact hs
  cases p with
  | expr e => exact Expr.holds hexpr hstmt e _ (.refl _)
  | stmt s => exact Stmt.holds hexpr hstmt s _ (.refl _)

theorem finite_contains (v : Version) (p : Part) : {q | p.Contains v q}.Finite := by
  induction p using Part.induct v with
  | h p hparts hbody => exact finite_of_parts hparts hbody

theorem finite_said (v : Version) (ss : List Stmt) (word : Part → Option α) :
    {a | ∃ s ∈ ss, ∃ q, (Part.stmt s).Contains v q ∧ word q = some a}.Finite := by
  have hparts : (⋃ s ∈ {s | s ∈ ss}, {q | (Part.stmt s).Contains v q}).Finite :=
    ss.finite_toSet.biUnion fun s _ => finite_contains v (.stmt s)
  refine ((hparts.image word).preimage (some_injective α).injOn).subset ?_
  rintro a ⟨s, hs, q, hq, ha⟩
  exact ⟨q, Set.mem_biUnion hs hq, ha⟩

end Part

/-- Finitely many things that are bounded have a common bound. -/
theorem exists_common_bound {xs : Set α} (hxs : xs.Finite) {within : α → Nat → Prop}
    (hmono : ∀ x ⦃n m⦄, n ≤ m → within x n → within x m) (h : ∀ x ∈ xs, ∃ n, within x n) :
    ∃ n, ∀ x ∈ xs, within x n := by
  choose! bound hbound using h
  obtain ⟨n, hn⟩ := (hxs.image bound).bddAbove
  exact ⟨n, fun x hx => hmono x (hn (Set.mem_image_of_mem bound hx)) (hbound x hx)⟩

namespace Library

/-- One file includes another, where includes are looked for in the folder first. -/
def Leads (lib : Library) (v : Version) (folder file file' : String) : Prop :=
  ∃ program, lib.sources.read? file = some program ∧ ∃ s ∈ program.body, ∃ q path,
    (Part.stmt s).Contains v q ∧ q.path? = some path ∧ lib.locate? folder path = some file'

/-- The files that the path of an include leads through, one including the next. -/
def Chain (lib : Library) (v : Version) (folder path : String) (files : List String) : Prop :=
  files.IsChain (lib.Leads v folder) ∧ (∀ file ∈ files, (lib.sources.read? file).isSome = true) ∧
    files.head? = lib.locate? folder path

theorem chain_of_slips {n : Nat} (h : Slips (lib.at folder) v p (.nests n)) :
    ∃ q path files, p.Contains v q ∧ q.path? = some path ∧ files.length = n + 1 ∧
      lib.Chain v folder path files := by
  generalize he : Slip.nests n = e at h
  induction h generalizing n with
  | @own p e hown =>
    subst he
    unfold Part.slip? at hown
    split at hown <;> cases hown
  | part hq _ _ ih =>
    obtain ⟨r, path, files, hr, hchain⟩ := ih he
    exact ⟨r, path, files, .part hq hr, hchain⟩
  | body hn _ _ ih =>
    obtain ⟨r, path, files, hr, hchain⟩ := ih he
    exact ⟨r, path, files, .body hn hr, hchain⟩
  | strays => cases he
  | @nests p path program hp hi =>
    cases he
    obtain ⟨location, hlocate, hread⟩ := at_includes.1 hi
    exact ⟨p, path, [location], .refl p, hp, rfl, .singleton _, by simp [hread], hlocate.symm⟩
  | @included p path program s e e' hp hi hs hslips hincluded ih =>
    subst he
    obtain ⟨m, rfl, rfl⟩ : ∃ m, e' = .nests m ∧ n = m + 1 := by
      cases e' <;> simp_all [Slip.included?]
    obtain ⟨location, hlocate, hread⟩ := at_includes.1 hi
    obtain ⟨q, path', files, hq, hpath', hlength, hchain, hreads, hhead⟩ := ih rfl
    refine ⟨p, path, location :: files, .refl p, hp, by simp [hlength], ?_, ?_, hlocate.symm⟩
    · cases files with
      | nil => exact .singleton _
      | cons file files =>
        exact .cons_cons ⟨program, hread, s, hs, q, path', hq, hpath', hhead.symm⟩ hchain
    · simpa [hread] using hreads

theorem finite_leads (file : String) : {file' | lib.Leads v folder file file'}.Finite := by
  cases hread : lib.sources.read? file with
  | none => simp [Leads, hread]
  | some program =>
    refine (Part.finite_said v program.body (·.path?.bind (lib.locate? folder))).subset ?_
    rintro file' ⟨program', hread', s, hs, q, path, hq, hpath, hlocate⟩
    obtain rfl := some.inj (hread.symm.trans hread')
    exact ⟨s, hs, q, hq, by simp [hpath, hlocate]⟩

theorem exists_longest (hwf : WellFounded fun file' file => lib.Leads v folder file file')
    (file : String) :
    ∃ n, ∀ files, (file :: files).IsChain (lib.Leads v folder) → files.length ≤ n := by
  induction file using hwf.induction with
  | h file ih =>
    obtain ⟨n, hn⟩ := exists_common_bound (finite_leads file)
      (fun _ _ _ hle h files hfiles => (h files hfiles).trans hle) ih
    refine ⟨n + 1, fun files hfiles => ?_⟩
    cases hfiles with
    | singleton => exact Nat.zero_le _
    | cons_cons hleads hrest => exact Nat.succ_le_succ (hn _ hleads _ hrest)

end Library

theorem reflTransGen_of_isChain {a b : α} (h : (a :: l).IsChain r) (hb : b ∈ a :: l) :
    Relation.ReflTransGen r a b := by
  induction l generalizing a with
  | nil => exact mem_singleton.1 hb ▸ .refl
  | cons c l ih =>
    rcases mem_cons.1 hb with rfl | hb
    · exact .refl
    · cases h with
      | cons_cons hac hl => exact .head hac (ih hl hb)

theorem circle_of_not_nodup {κ : Type} {key : α → κ}
    (hkey : ∀ ⦃a b c⦄, key b = key a → r a c → r b c) (hl : l.IsChain r) (h : ¬ (l.map key).Nodup) :
    ∃ a, Relation.TransGen r a a := by
  induction l with
  | nil => exact absurd .nil h
  | cons a l ih =>
    by_cases hrest : (l.map key).Nodup
    · cases l with
      | nil => simp at h
      | cons c l =>
        cases hl with
        | cons_cons hac hl =>
          rw [map_cons, nodup_cons] at h
          obtain ⟨b, hb, hba⟩ := mem_map.1 (not_not.1 fun hn => h ⟨hn, hrest⟩)
          exact ⟨c, .tail' (reflTransGen_of_isChain hl hb) (hkey hba hac)⟩
    · exact ih (IsChain.tail hl) hrest

namespace Files

variable {files : Files} {path path' : String}

theorem read?_congr (h : files.locate? path' = files.locate? path) :
    files.sources.read? path' = files.sources.read? path := by
  simp only [sources, readProgram, readText?, read?, get?, h]

theorem key_of_read? (h : (files.sources.read? path).isSome = true) :
    ∃ key ∈ files.entries.map Prod.fst, files.locate? path = some key := by
  have hbytes : ∃ bytes, files.read? path = some bytes := by
    cases hb : files.read? path with
    | none => simp [sources, readProgram, readText?, hb, Except.toOption] at h
    | some bytes => exact ⟨bytes, rfl⟩
  obtain ⟨bytes, hbytes⟩ := hbytes
  unfold read? get? at hbytes
  cases hkey : files.locate? path with
  | none => simp [hkey] at hbytes
  | some key =>
    refine ⟨key, ?_, rfl⟩
    simp only [hkey, bind_some, find?] at hbytes
    cases hfind : files.entries.lookup key with
    | none => cases hempty : key.isEmpty <;> simp only [hempty, hfind] at hbytes <;> cases hbytes
    | some content =>
      obtain ⟨before, after, hentries, -⟩ := lookup_eq_some_iff.1 hfind
      simp [hentries]

theorem length_chain_le {chain : List String} (hlib : lib.sources = files.sources)
    (hchain : chain.IsChain (lib.Leads v folder))
    (hread : ∀ file ∈ chain, (files.sources.read? file).isSome = true)
    (hcircle : ∀ file, ¬ Relation.TransGen (lib.Leads v folder) file file) :
    chain.length ≤ files.entries.length := by
  have hkey : ∀ ⦃a b c⦄, files.locate? b = files.locate? a → lib.Leads v folder a c →
      lib.Leads v folder b c := by
    rintro a b c hab ⟨program, hprogram, h⟩
    exact ⟨program, by rw [hlib, read?_congr hab, ← hlib, hprogram], h⟩
  have hnodup : (chain.map files.locate?).Nodup := by
    by_contra h
    obtain ⟨file, hfile⟩ := circle_of_not_nodup hkey hchain h
    exact hcircle file hfile
  have hsub : chain.map files.locate? ⊆ (files.entries.map Prod.fst).map some := by
    intro key hmem
    obtain ⟨file, hfile, rfl⟩ := mem_map.1 hmem
    obtain ⟨key, hkey, hlocate⟩ := key_of_read? (hread file hfile)
    exact hlocate ▸ mem_map_of_mem hkey
  simpa using (hnodup.subperm hsub).length_le

end Files

section

variable {o : Options} {sources : Sources} {p : Program} {source : String}

theorem renames_of_slips {p : Part} {name : String} (h : Slips lib v p (.renames name)) :
    ∃ q, p.Contains v q ∧ q.slip? = some (.renames name) := by
  generalize he : Slip.renames name = e at h
  induction h with
  | @own p e hown => exact ⟨p, .refl p, he ▸ hown⟩
  | part hq _ _ ih =>
    obtain ⟨r, hr, hslip⟩ := ih he
    exact ⟨r, .part hq hr, hslip⟩
  | body hn _ _ ih =>
    obtain ⟨r, hr, hslip⟩ := ih he
    exact ⟨r, .body hn hr, hslip⟩
  | strays | nests => cases he
  | @included p path program s e e' hp hi hs hslips hincluded ih =>
    subst he
    cases e' <;> simp [Slip.included?] at hincluded

theorem Program.finite_looksIn : {folder | p.LooksIn o sources source folder}.Finite := by
  have hnames : (p.trail o sources).names.Finite := by
    refine (Part.finite_said o.version p.body fun q => q.slip?.bind fun
      | .renames name => some name
      | _ => none).subset ?_
    rintro name ⟨folder, q, hq, hslips⟩
    obtain ⟨s, hs, rfl⟩ := mem_map.1 hq
    obtain ⟨r, hr, hslip⟩ := renames_of_slips hslips
    exact ⟨s, hs, r, hr, by simp [hslip]⟩
  refine (o.includeFolder.toList.finite_toSet.union
    ((hnames.insert source).image Path.parent)).subset ?_
  rintro folder (h | ⟨-, name, hname, rfl⟩)
  · exact .inl (by simp [h])
  · exact .inr ⟨name, hname, rfl⟩

theorem Program.exists_depth (hwf : ∀ folder, p.LooksIn o sources source folder →
      WellFounded fun file' file =>
        Library.Leads ⟨sources, none, o.projectFolder⟩ o.version folder file file') :
    ∃ depth, ∀ folder, p.LooksIn o sources source folder →
      ∀ n ≥ depth, .nests n ∉ p.trail o sources folder := by
  refine exists_common_bound finite_looksIn (fun _ _ _ hle h n hn => h n (hle.trans hn)) ?_
  intro folder hfolder
  let lib : Library := ⟨sources, none, o.projectFolder⟩
  obtain ⟨depth, hdepth⟩ := exists_common_bound
    (Part.finite_said o.version p.body (·.path?.bind (lib.locate? folder)))
    (fun _ _ _ hle h files hfiles => (h files hfiles).trans hle)
    fun file _ => Library.exists_longest (hwf folder hfolder) file
  refine ⟨depth + 1, fun n hn hnests => ?_⟩
  obtain ⟨_, hq, hslips⟩ := hnests
  obtain ⟨s, hs, rfl⟩ := mem_map.1 hq
  obtain ⟨q, path, files, hcontains, hpath, hlength, hchain, -, hhead⟩ := Library.chain_of_slips hslips
  cases files with
  | nil => cases hlength
  | cons file files =>
    have hle := hdepth file ⟨s, hs, q, hcontains, by simpa [hpath] using hhead.symm⟩ files hchain
    simp only [length_cons] at hlength
    omega

/-- Compilation gives a script or says why the program is rejected. -/
def Settles : Except Failure Script → Prop
  | .ok _ | .error (.rejected _) => True
  | _ => False

theorem Program.settles_of_not_nests {depth : Nat}
    (h : ∀ folder, p.LooksIn o sources source folder → .nests depth ∉ p.trail o sources folder) :
    Settles (p.compile o sources depth source) := by
  cases hc : p.compile o sources depth source with
  | ok script => trivial
  | error e =>
    cases e with
    | rejected => trivial
    | defect d => exact compile_ne_defect d hc
    | includesTooDeep =>
      obtain ⟨folder, hfolder, hnests⟩ := nests_of_includesTooDeep hc
      exact h folder hfolder hnests

end

/-- Compilation never fails by a defect, whatever is included and however deep. Where no chain of
includes goes on for ever it ends with a script or a rejection, and so it does for the files of a
tree if they do not include each other in a circle. -/
theorem compile_settles (o : Options) (p : Program) (source : String) :
    (∀ sources depth d, p.compile o sources depth source ≠ .error (.defect d)) ∧
    (∀ sources : Sources,
      (∀ folder, p.LooksIn o sources source folder → WellFounded fun file' file =>
        Library.Leads ⟨sources, none, o.projectFolder⟩ o.version folder file file') →
      ∃ enough, ∀ depth ≥ enough, Settles (p.compile o sources depth source)) ∧
    ∀ files : Files,
      (∀ folder, p.LooksIn o files.sources source folder → ∀ file, ¬ Relation.TransGen
        (Library.Leads ⟨files.sources, none, o.projectFolder⟩ o.version folder) file file) →
      Settles (files.compile o p source) := by
  refine ⟨fun _ _ => Program.compile_ne_defect, fun sources hwf => ?_, fun files hcircle => ?_⟩
  · obtain ⟨enough, henough⟩ := Program.exists_depth hwf
    exact ⟨enough, fun depth hdepth => Program.settles_of_not_nests fun folder hfolder =>
      henough folder hfolder depth hdepth⟩
  · refine Program.settles_of_not_nests fun folder hfolder hnests => ?_
    obtain ⟨_, hq, hslips⟩ := hnests
    obtain ⟨s, hs, rfl⟩ := List.mem_map.1 hq
    obtain ⟨q, path, chain, -, -, hlength, hchain, hread, -⟩ := Library.chain_of_slips hslips
    have hle := Files.length_chain_le rfl hchain hread (hcircle folder hfolder)
    omega

/-- Two files, of which the first includes the second. -/
def twoFiles : Sources where
  exists_ file := file == "a.ad" || file == "b.ad"
  read? file :=
    if file = "a.ad" then some ⟨[.includeFile {} "b.ad"]⟩
    else if file = "b.ad" then some ⟨[]⟩
    else none

theorem twoFiles_leads {file file' : String}
    (h : Library.Leads ⟨twoFiles, none, none⟩ .latestCommon "" file file') :
    file = "a.ad" ∧ file' = "b.ad" := by
  obtain ⟨program, hread, s, hs, q, path, hq, hpath, hlocate⟩ := h
  simp only [twoFiles] at hread
  split at hread
  · cases hread
    obtain rfl := mem_singleton.1 hs
    have hq' : q = .stmt (.includeFile {} "b.ad") := by
      cases hq with
      | refl => rfl
      | part hr => cases hr
      | body hn => cases hn
    subst hq'
    cases hpath
    have hb : Library.locate? ⟨twoFiles, none, none⟩ "" "b.ad" = some "b.ad" := by
      decide +kernel
    exact ⟨‹_›, some.inj (hlocate.symm.trans hb)⟩
  · split at hread
    · cases hread
      cases hs
    · cases hread

theorem nestedIncludes_settle :
    (∀ folder, Program.LooksIn { includeFolder := some "" } twoFiles ⟨[.includeFile {} "a.ad"]⟩
      "test.ad" folder → WellFounded fun file' file =>
        Library.Leads ⟨twoFiles, none, none⟩ .latestCommon folder file file') ∧
    ∃ enough, ∀ depth ≥ enough, Settles (Program.compile { includeFolder := some "" } twoFiles depth
      ⟨[.includeFile {} "a.ad"]⟩ "test.ad") := by
  have hwf : ∀ folder, Program.LooksIn { includeFolder := some "" } twoFiles
      ⟨[.includeFile {} "a.ad"]⟩ "test.ad" folder → WellFounded fun file' file =>
        Library.Leads ⟨twoFiles, none, none⟩ .latestCommon folder file file' := by
    rintro folder (h | ⟨h, -⟩)
    · cases h
      refine Subrelation.wf ?_ (measure fun file => if file = "a.ad" then 1 else 0).wf
      intro file' file h
      obtain ⟨rfl, rfl⟩ := twoFiles_leads h
      exact Nat.zero_lt_one
    · cases h
  exact ⟨hwf, (compile_settles { includeFolder := some "" } _ _).2.1 _ hwf⟩

end Adhoc
