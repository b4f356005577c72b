import Adhoc.Proofs.Occurrences
import Adhoc.Tree.Text
import Mathlib

namespace Adhoc

open List Stmt

namespace Json

theorem intBetween?_int {low high i : Int} (h : low ≤ i) (h' : i ≤ high) :
    (Json.number (.int i)).intBetween? low high = some i := by
  simp [intBetween?, int?, Option.filter, h, h']

theorem signed?_int {width : Nat} {i : Int} (h : -2 ^ width ≤ i) (h' : i < 2 ^ width) :
    (Json.number (.int i)).signed? width = some i := by
  have hbound : Int.ofNat (Nat.pow 2 width) = 2 ^ width := by
    rw [Int.ofNat_eq_natCast, Nat.pow_eq, Int.natCast_pow]
    rfl
  unfold signed?
  rw [hbound]
  exact intBetween?_int h (by omega)

theorem unsigned?_int {width n : Nat} (h : n < 2 ^ width) :
    (Json.number (.int n)).unsigned? width = some n := by
  have hle : (n : Int) ≤ Int.ofNat (Nat.pow 2 width) - 1 := by
    rw [Nat.pow_eq, Int.ofNat_eq_natCast]
    omega
  rw [unsigned?, intBetween?_int (by omega) hle]
  rfl

theorem signed?_reads {α : Type} {width : Nat} {i : Int} {make : Int → α} {a : α} (h : -2 ^ width ≤ i)
    (h' : i < 2 ^ width) (ha : make i = a) :
    ((Json.number (.int i)).signed? width).map make = some a := by
  rw [signed?_int h h', Option.map_some, ha]

theorem unsigned?_reads {α : Type} {width n : Nat} {make : Nat → α} {a : α} (h : n < 2 ^ width)
    (ha : make n = a) : ((Json.number (.int n)).unsigned? width).map make = some a := by
  rw [unsigned?_int h, Option.map_some, ha]

theorem word?_toNat (n : UInt32) : (Json.number (.int n.toNat)).word? = some n := by
  have hlt := n.toNat_lt
  rw [word?, intBetween?_int (by omega) (by omega)]
  simp

end Json

theorem View.json_ofJson (j : Json) : (View.ofJson j).json = j := by
  cases j <;> rfl

theorem Loc.reads (loc : Loc) : Loc.ofJson? (View.ofJson loc.toJson).json = some loc := by
  rw [View.json_ofJson]
  simp [Loc.ofJson?, Loc.toJson, Json.fields?, Entries.required, Entries.withDefault, Entries.once?,
    Json.word?_toNat]

theorem UnaryOp.ofText?_text (op : UnaryOp) : ofText? op.text = some op := by
  cases op <;> decide

theorem UpdateOp.ofText?_text (op : UpdateOp) : ofText? op.text = some op := by
  cases op <;> decide

theorem BinaryOp.ofText?_text (op : BinaryOp) : ofText? op.text = some op := by
  cases op <;> decide

theorem LogicalOp.ofText?_text (op : LogicalOp) : ofText? op.text = some op := by
  cases op <;> decide

theorem AssignOp.ofText?_text (op : AssignOp) : ofText? op.text = some op := by
  cases op <;> decide

/-- Whether the literal is a float or a double. -/
def Literal.isReal : Literal → Bool
  | .float _ | .double _ => true
  | _ => false

theorem Literal.reads {l : Literal} (h : l.isReal = false) :
    Literal.ofJson? (View.ofJson l.toJson).json = some l := by
  rw [View.json_ofJson]
  cases l with
  | nil | bool | symbol | string => rfl
  | float | double => cases h
  | int i | long i | byte i | short i => exact Json.signed?_reads i.le_toInt i.toInt_lt (by simp)
  | uint n | ulong n | ubyte n | ushort n => exact Json.unsigned?_reads n.toNat_lt (by simp)

/-- Whether the part is a float or a double. -/
def Part.isReal : Part → Bool
  | .expr (.literal _ l) => l.isReal
  | _ => false

/-- None of the nodes is a float or a double. -/
def NoReals (os : List Occurrence) : Prop := ∀ o ∈ os, o.part.isReal = false

instance (os : List Occurrence) : Decidable (NoReals os) :=
  inferInstanceAs (Decidable (∀ o ∈ os, o.part.isReal = false))

namespace NoReals

variable {o : Occurrence} {os ps : List Occurrence}

theorem tail (h : NoReals (o :: os)) : NoReals os := fun o ho => h o (mem_cons_of_mem _ ho)

theorem left (h : NoReals (os ++ ps)) : NoReals os := fun o ho => h o (mem_append_left _ ho)

theorem right (h : NoReals (os ++ ps)) : NoReals ps := fun o ho => h o (mem_append_right _ ho)

theorem of_unread (h : NoReals (unread os)) : NoReals os :=
  fun o ho => h { o with isRead := false } (mem_map_of_mem ho)

theorem of_ite {c : Bool} (h : NoReals (if c then os else unread os)) : NoReals os := by
  cases c with
  | true => exact h
  | false => exact of_unread h

theorem of_quoted {n : Nat} {es : List Expr} (h : NoReals (quotedNodes n es)) :
    NoReals (exprsNodes es) := by
  induction es generalizing n with
  | nil => exact h
  | cons e es ih =>
    have happend {os ps : List Occurrence} (h : NoReals os) (h' : NoReals ps) : NoReals (os ++ ps) :=
      fun o ho => (mem_append.1 ho).elim (h o) (h' o)
    cases n with
    | zero => exact happend h.left.of_unread (ih h.right)
    | succ n => exact happend h.left (ih h.right)

theorem of_returned {a : Option Expr} (h : NoReals (returnedNodes a)) : NoReals (holeNodes a) := by
  intro o ho
  cases a with
  | none => cases ho
  | some e =>
    cases e
    case assign loc op left right =>
      rcases mem_cons.1 ho with rfl | ho
      · rfl
      rcases mem_append.1 ho with ho | ho
      · exact h.tail.left o.inTarget (mem_map_of_mem ho)
      · exact h.tail.right o ho
    all_goals exact h o ho

end NoReals

namespace View

theorem bind_eq {α β : Type} {x : Option α} {f : α → Option β} {a : α} {b : Option β}
    (hx : x = some a) (hf : f a = b) : x.bind f = b := by
  rw [hx]
  exact hf

theorem mapM_cons_eq {α β : Type} {f : α → Option β} {a : α} {as : List α} {b : β} {bs : List β}
    (ha : f a = some b) (has : as.mapM f = some bs) : (a :: as).mapM f = some (b :: bs) := by
  rw [mapM_cons, ha, has]
  rfl

/-- Whether none of the fields is the kind or the position of a node. -/
def isInner (fields : List (String × Json)) : Bool :=
  fields.all fun f => f.1 != "type" && f.1 != "loc"

theorem filter_ofJsonFields {fields : List (String × Json)} {key : String}
    (h : ∀ f ∈ fields, f.1 ≠ key) : (ofJsonFields fields).filter (·.1 == key) = [] := by
  induction fields with
  | nil => rfl
  | cons f fields ih =>
    obtain ⟨name, value⟩ := f
    rw [forall_mem_cons] at h
    rw [ofJsonFields, filter_cons_of_neg (by simpa [ofJsonField] using h.1), ih h.2]

/-- The kind and the position of a written node are read first. -/
theorem read_node {α : Type} {kind : String} {loc : Loc} {fields : List (String × Json)}
    {f : String → Loc → Option α} {a : Option α} (hinner : isInner fields = true)
    (h : f kind loc = a) : (do
      let kind ← Fields.kind? (ofJsonFields (("type", .string kind) :: ("loc", loc.toJson) :: fields))
      let loc ← Fields.loc? (ofJsonFields (("type", .string kind) :: ("loc", loc.toJson) :: fields))
      f kind loc) = a := by
  simp only [isInner, all_eq_true, Bool.and_eq_true, bne_iff_ne] at hinner
  have hkind := filter_ofJsonFields fun f hf => (hinner f hf).1
  have hloc := filter_ofJsonFields fun f hf => (hinner f hf).2
  refine bind_eq ?_ (bind_eq ?_ h)
  · simp [Fields.kind?, Entries.required, Entries.once?, ofJsonFields, ofJsonField, hkind, Fields.text?,
      View.json_ofJson, Json.string?]
  · have hread := Loc.reads loc
    simp [Fields.loc?, Entries.withDefault, Entries.once?, ofJsonFields, ofJsonField, hloc, hread]

end View

theorem Routine.fields_isInner (r : Routine) : View.isInner r.fields = true := by cases r; rfl

theorem ClassDef.fields_isInner (d : ClassDef) : View.isInner d.fields = true := by cases d; rfl

open View

theorem textReads (o : Option String) :
    (if (View.ofJson (textToJson o)).json.isNull then some none
      else (Fields.text? (View.ofJson (textToJson o))).map some) = some o := by
  cases o <;> rfl

theorem quasisRead (qs : List Quasi) :
    quasisOfJson? (View.ofJson (.array (qs.map Quasi.toJson))).json = some qs := by
  have hquasi (q : Quasi) : Quasi.ofJson? q.toJson = some q := by
    have hloc := Loc.reads q.loc
    rw [View.json_ofJson] at hloc
    exact View.bind_eq hloc rfl
  have hall : (qs.map Quasi.toJson).mapM Quasi.ofJson? = some qs := by
    induction qs with
    | nil => rfl
    | cons q qs ih => exact mapM_cons_eq (hquasi q) ih
  exact hall

theorem Expr.toJson_isNull (e : Expr) : (View.ofJson e.toJson).json.isNull = false := by
  cases e <;> rfl

theorem Stmt.toJson_isNull (s : Stmt) : (View.ofJson s.toJson).json.isNull = false := by
  cases s <;> rfl

theorem Expr.toJson_stmt? (e : Expr) : (View.ofJson e.toJson).stmt? = none := by
  cases e with
  | function _ r | method _ r | arrow _ r => exact read_node r.fields_isInner rfl
  | classDef _ d => exact read_node d.fields_isInner rfl
  | _ => exact read_node rfl rfl

mutual

theorem Expr.reads : ∀ e : Expr, NoReals e.nodes → (View.ofJson e.toJson).expr? = some e
  | .ident _ _, _ | .yield _, _ | .selfRef _, _ => read_node rfl rfl
  | .function _ r, h | .method _ r, h | .arrow _ r, h =>
    read_node r.fields_isInner (bind_eq (Routine.reads r h.tail) rfl)
  | .call _ callee arguments, h => read_node rfl (bind_eq (Expr.reads callee h.tail.left)
      (bind_eq (exprsRead arguments h.tail.right) rfl))
  | .unary _ op a, h => read_node rfl (bind_eq rfl (bind_eq op.ofText?_text
      (bind_eq (Expr.reads a h.tail) rfl)))
  | .update _ op _ a, h => read_node rfl (bind_eq rfl (bind_eq op.ofText?_text
      (bind_eq rfl (bind_eq (Expr.reads a h.tail) rfl))))
  | .binary _ op a b, h | .logical _ op a b, h | .assign _ op a b, h =>
    read_node rfl (bind_eq rfl (bind_eq op.ofText?_text
      (bind_eq (Expr.reads a h.tail.left) (bind_eq (Expr.reads b h.tail.right) rfl))))
  | .literal _ _, h => read_node rfl (bind_eq (Literal.reads (h _ mem_cons_self)) rfl)
  | .array _ elements, h => read_node rfl (bind_eq (holesRead elements h.tail) rfl)
  | .map _ entries, h => read_node rfl (bind_eq (pairsRead entries h.tail) rfl)
  | .element _ a b _, h | .attribute _ a b _, h | .selector _ a b, h | .assignPattern _ a b, h =>
    read_node rfl (bind_eq (Expr.reads a h.tail.left) (bind_eq (Expr.reads b h.tail.right) rfl))
  | .path _ a b, h => read_node rfl (bind_eq (Expr.reads a h.tail.of_unread.left)
      (bind_eq (Expr.reads b h.tail.of_unread.right) rfl))
  | .arrayPattern _ es, h | .tagged _ es, h | .sequence _ es, h =>
    read_node rfl (bind_eq (exprsRead es h.tail) rfl)
  | .rest _ a, h | .staticDecl _ a, h | .attributeDecl _ a, h | .await _ a, h | .spread _ a, h =>
    read_node rfl (bind_eq (Expr.reads a h.tail) rfl)
  | .conditional _ a b c, h => read_node rfl (bind_eq (Expr.reads a h.tail.left)
      (bind_eq (Expr.reads b h.tail.right.left) (bind_eq (Expr.reads c h.tail.right.right) rfl)))
  | .template _ quasis es, h => read_node rfl (bind_eq (quasisRead quasis)
      (bind_eq (exprsRead es h.tail.of_quoted) rfl))
  | .classDef _ d, h => read_node d.fields_isInner (bind_eq (ClassDef.reads d h.tail) rfl)
  | .importName _ es _ asName, h => read_node rfl (bind_eq (exprsRead es h.tail.of_unread)
      (bind_eq rfl (bind_eq (textReads asName) rfl)))

theorem exprsRead : ∀ es : List Expr, NoReals (exprsNodes es) →
    (ofJsons (exprsToJson es)).mapM (·.expr?) = some es
  | [], _ => rfl
  | e :: es, h => mapM_cons_eq (Expr.reads e h.left) (exprsRead es h.right)

theorem holeReads : ∀ o : Option Expr, NoReals (holeNodes o) →
    (View.ofJson (holeToJson o)).hole? = some o
  | none, _ => rfl
  | some e, h => by
    rw [holeToJson, hole?, e.toJson_isNull, Expr.reads e h]
    rfl

theorem holesRead : ∀ es : List (Option Expr), NoReals (holesNodes es) →
    (ofJsons (holesToJson es)).mapM hole? = some es
  | [], _ => rfl
  | e :: es, h => mapM_cons_eq (holeReads e h.left) (holesRead es h.right)

theorem pairReads : ∀ p : Expr × Expr, NoReals (pairNodes p) →
    (View.ofJson (pairToJson p)).pair? = some p
  | (a, b), h => bind_eq (Expr.reads a h.left) (bind_eq (Expr.reads b h.right) rfl)

theorem pairsRead : ∀ ps : List (Expr × Expr), NoReals (pairsNodes ps) →
    (ofJsons (pairsToJson ps)).mapM (·.pair?) = some ps
  | [], _ => rfl
  | p :: ps, h => mapM_cons_eq (pairReads p h.left) (pairsRead ps h.right)

theorem Routine.reads {kind loc : View} : ∀ r : Routine, NoReals r.nodes →
    Fields.routine? (("type", kind) :: ("loc", loc) :: ofJsonFields r.fields) = some r
  | ⟨id, params, body⟩, h => bind_eq (holeReads id h.left.of_unread)
      (bind_eq (exprsRead params h.right.left) (bind_eq (Node.reads body h.right.right) rfl))

theorem ClassDef.reads {kind loc : View} : ∀ d : ClassDef, NoReals d.nodes →
    Fields.classDef? (("type", kind) :: ("loc", loc) :: ofJsonFields d.fields) = some d
  | ⟨id, superClass, body, _⟩, h => bind_eq (Expr.reads id h.left.of_unread.left)
      (bind_eq (holeReads superClass h.left.of_unread.right) (bind_eq (stmtsRead body h.right) rfl))

theorem Node.reads : ∀ n : Node, NoReals n.nodes → (View.ofJson n.toJson).node? = some n
  | .stmt s, h => by
    rw [Node.toJson, node?, Stmt.reads s h]
    rfl
  | .expr e, h => by
    rw [Node.toJson, node?, e.toJson_stmt?, Expr.reads e h]
    rfl

theorem nodeHoleReads : ∀ o : Option Node, NoReals (nodeHoleNodes o) →
    (if (View.ofJson (nodeHoleToJson o)).json.isNull then some none
      else (View.ofJson (nodeHoleToJson o)).node?.map some) = some o
  | none, _ => rfl
  | some (.stmt s), h => by
    rw [nodeHoleToJson, Node.reads (.stmt s) h, Node.toJson, s.toJson_isNull]
    rfl
  | some (.expr e), h => by
    rw [nodeHoleToJson, Node.reads (.expr e) h, Node.toJson, e.toJson_isNull]
    rfl

theorem Declarator.reads : ∀ d : Declarator, NoReals d.nodes →
    (View.ofJson d.toJson).declarator? = some d
  | ⟨loc, id, init⟩, h => bind_eq (Loc.reads loc) (bind_eq (holeReads id h.left)
      (bind_eq (holeReads init h.right) rfl))

theorem declaratorsRead : ∀ ds : List Declarator, NoReals (declaratorsNodes ds) →
    (ofJsons (declaratorsToJson ds)).mapM (·.declarator?) = some ds
  | [], _ => rfl
  | d :: ds, h => mapM_cons_eq (Declarator.reads d h.left) (declaratorsRead ds h.right)

theorem SwitchCase.reads : ∀ c : SwitchCase, NoReals c.nodes → (View.ofJson c.toJson).case? = some c
  | ⟨loc, test, consequent⟩, h => bind_eq (Loc.reads loc) (bind_eq (holeReads test h.left)
      (bind_eq (stmtsRead consequent h.right) rfl))

theorem casesRead : ∀ cs : List SwitchCase, NoReals (casesNodes cs) →
    (ofJsons (casesToJson cs)).mapM (·.case?) = some cs
  | [], _ => rfl
  | c :: cs, h => mapM_cons_eq (SwitchCase.reads c h.left) (casesRead cs h.right)

theorem clauseHoleReads : ∀ o : Option CatchClause, NoReals (clauseHoleNodes o) →
    (if (View.ofJson (clauseHoleToJson o)).json.isNull then some none
      else (View.ofJson (clauseHoleToJson o)).clause?.map some) = some o
  | none, _ => rfl
  | some ⟨loc, param, body⟩, h => by
    have hclause : (View.ofJson (CatchClause.toJson ⟨loc, param, body⟩)).clause? =
        some ⟨loc, param, body⟩ :=
      bind_eq (Loc.reads loc) (bind_eq (holeReads param h.left) (bind_eq (Stmt.reads body h.right) rfl))
    rw [clauseHoleToJson, hclause]
    rfl

theorem Stmt.reads : ∀ s : Stmt, NoReals s.nodes → (View.ofJson s.toJson).stmt? = some s
  | .classDef _ d, h => read_node d.fields_isInner (bind_eq (ClassDef.reads d h.tail) rfl)
  | .function _ r, h => read_node r.fields_isInner (bind_eq (Routine.reads r h.tail.of_ite) rfl)
  | .method _ r, h => read_node r.fields_isInner (bind_eq (Routine.reads r h.tail) rfl)
  | .forLoop _ init test update body, h => read_node rfl (bind_eq (nodeHoleReads init h.tail.left)
      (bind_eq (holeReads test h.tail.right.left) (bind_eq (holeReads update h.tail.right.right.right)
        (bind_eq (Stmt.reads body h.tail.right.right.left) rfl))))
  | .foreach _ left right body, h => read_node rfl (bind_eq (Node.reads left h.tail.right.left)
      (bind_eq (Expr.reads right h.tail.left) (bind_eq (Stmt.reads body h.tail.right.right) rfl)))
  | .whileLoop _ e s, h | .moduleConstructor _ e s, h =>
    read_node rfl (bind_eq (Expr.reads e h.tail.left) (bind_eq (Stmt.reads s h.tail.right) rfl))
  | .doWhile _ body test, h => read_node rfl (bind_eq (Stmt.reads body h.tail.left)
      (bind_eq (Expr.reads test h.tail.right) rfl))
  | .declare _ ds, h => read_node rfl (bind_eq (declaratorsRead ds h.tail) rfl)
  | .returnValue _ a, h => read_node rfl (bind_eq (holeReads a h.tail.of_returned) rfl)
  | .importName _ es _ asName, h => read_node rfl (bind_eq (exprsRead es h.tail.of_unread)
      (bind_eq rfl (bind_eq (textReads asName) rfl)))
  | .ifElse _ test c a, h => read_node rfl (bind_eq (Expr.reads test h.tail.left)
      (bind_eq (Stmt.reads c h.tail.right.left) (bind_eq (stmtHoleReads a h.tail.right.right) rfl)))
  | .block _ body, h => read_node rfl (bind_eq (stmtsRead body h.tail) rfl)
  | .expression _ e, h | .require _ e, h | .throw _ e, h | .finalizer _ e, h | .delegate _ e, h =>
    read_node rfl (bind_eq (Expr.reads e h.tail) rfl)
  | .switch _ e cases, h => read_node rfl (bind_eq (Expr.reads e h.tail.left)
      (bind_eq (casesRead cases h.tail.right) rfl))
  | .continueLoop _ label, _ | .breakOut _ label, _ => read_node rfl (bind_eq (textReads label) rfl)
  | .labeled _ _ s, h => read_node rfl (bind_eq rfl (bind_eq (Stmt.reads s h.tail) rfl))
  | .tryCatch _ b handler f, h => read_node rfl (bind_eq (Stmt.reads b h.tail.left)
      (bind_eq (clauseHoleReads handler h.tail.right.left)
        (bind_eq (stmtHoleReads f h.tail.right.right) rfl)))
  | .print _ es, h => read_node rfl (bind_eq (exprsRead es h.tail) rfl)
  | .includeFile _ _, _ | .undef _ _, _ | .sourceFile _ _, _ | .empty _, _ => read_node rfl rfl

theorem stmtsRead : ∀ ss : List Stmt, NoReals (stmtsNodes ss) →
    (ofJsons (stmtsToJson ss)).mapM (·.stmt?) = some ss
  | [], _ => rfl
  | s :: ss, h => mapM_cons_eq (Stmt.reads s h.left) (stmtsRead ss h.right)

theorem stmtHoleReads : ∀ o : Option Stmt, NoReals (stmtHoleNodes o) →
    (if (View.ofJson (stmtHoleToJson o)).json.isNull then some none
      else (View.ofJson (stmtHoleToJson o)).stmt?.map some) = some o
  | none, _ => rfl
  | some s, h => by
    rw [stmtHoleToJson, s.toJson_isNull, Stmt.reads s h]
    rfl

end

mutual

/-- The document of a value. -/
def Json.document : Json → Document
  | .null => .null
  | .bool b => .bool b
  | .number n => .number n
  | .string s => .string s
  | .array items => .array (documents items) none
  | .object fields => .object (fieldDocuments fields) none

def documents : List Json → List Document
  | [] => []
  | j :: rest => j.document :: documents rest

def fieldDocuments : List (String × Json) → List (Option String × Document)
  | [] => []
  | f :: rest => fieldDocument f :: fieldDocuments rest

def fieldDocument : String × Json → Option String × Document
  | (key, j) => (some key, j.document)

end

mutual

/-- How deep containers nest in a value. -/
def Json.nesting : Json → Nat
  | .array items => nestings items + 1
  | .object fields => fieldNestings fields + 1
  | _ => 0

def nestings : List Json → Nat
  | [] => 0
  | j :: rest => max j.nesting (nestings rest)

def fieldNestings : List (String × Json) → Nat
  | [] => 0
  | f :: rest => max (fieldNesting f) (fieldNestings rest)

def fieldNesting : String × Json → Nat
  | (_, j) => j.nesting

end

mutual

theorem Json.toJson_document {room : Nat} : ∀ j : Json, j.nesting ≤ room →
    j.document.toJson room = .ok j
  | .null, _ | .bool _, _ | .number _, _ | .string _, _ => rfl
  | .array items, h => by
    obtain ⟨room, rfl⟩ := Nat.exists_eq_add_of_le' (Nat.le_trans (Nat.le_add_left 1 _) h)
    rw [Json.document, Document.toJson, if_neg (by simp), Nat.add_sub_cancel,
      itemsToJson_documents items (by simpa [Json.nesting] using h)]
    rfl
  | .object fields, h => by
    obtain ⟨room, rfl⟩ := Nat.exists_eq_add_of_le' (Nat.le_trans (Nat.le_add_left 1 _) h)
    rw [Json.document, Document.toJson, if_neg (by simp), Nat.add_sub_cancel,
      fieldsToJson_documents fields (by simpa [Json.nesting] using h)]
    rfl

theorem itemsToJson_documents {room : Nat} : ∀ items : List Json, nestings items ≤ room →
    Document.itemsToJson room (documents items) = .ok items
  | [], _ => rfl
  | j :: rest, h => by
    rw [nestings, Nat.max_le] at h
    rw [documents, Document.itemsToJson, Json.toJson_document j h.1, itemsToJson_documents rest h.2]
    rfl

theorem fieldsToJson_documents {room : Nat} : ∀ fields : List (String × Json),
    fieldNestings fields ≤ room → Document.fieldsToJson room (fieldDocuments fields) = .ok fields
  | [], _ => rfl
  | (key, j) :: rest, h => by
    rw [fieldNestings, Nat.max_le] at h
    rw [fieldDocuments, fieldDocument, Document.fieldsToJson, Document.fieldToJson,
      Json.toJson_document j h.1, fieldsToJson_documents rest h.2]
    rfl

end

theorem Loc.ofDocument_document (loc : Loc) : Loc.ofDocument loc.toJson.document = .ok loc := by
  have hread (n : UInt32) :
      Document.readInt 0 0xFFFFFFFF (.number (.int n.toNat)) = .ok (n.toNat : Int) := by
    have hlt := n.toNat_lt
    rw [Document.readInt, if_pos]
    simp
    omega
  have hword (n : UInt32) : UInt32.ofNat (n.toNat : Int).toNat = n := by simp
  simp only [Loc.toJson, Json.document, fieldDocuments, fieldDocument, Loc.ofDocument, Loc.ofEntries,
    hread]
  change Except.ok (Loc.mk (UInt32.ofNat (loc.line.toNat : Int).toNat)
    (UInt32.ofNat (loc.column.toNat : Int).toNat)) = _
  rw [hword, hword]

theorem Stmt.fieldsOfEntries_documents {fields : List (String × Json)}
    (h : fieldNestings fields ≤ statementRoom) (hkeys : ∀ f ∈ fields, f.1 ≠ "loc") :
    Stmt.fieldsOfEntries true (fieldDocuments fields) none = .ok fields := by
  induction fields with
  | nil => rfl
  | cons f fields ih =>
    obtain ⟨key, j⟩ := f
    rw [fieldNestings, Nat.max_le] at h
    rw [forall_mem_cons] at hkeys
    have hvalue : j.document.toValue statementRoom = .ok j := by
      rw [Document.toValue, Json.toJson_document j h.1]
    rw [fieldDocuments, fieldDocument, Stmt.fieldsOfEntries, if_neg (by simpa using hkeys.1), hvalue,
      ih h.2 hkeys.2]
    rfl

theorem Stmt.toJson_eq (s : Stmt) : ∃ kind fields, s.toJson = nodeObject kind s.loc fields ∧
    ∀ f ∈ fields, f.1 ≠ "loc" := by
  cases s with
  | classDef loc d =>
    obtain ⟨id, superClass, body, isModule⟩ := d
    exact ⟨_, _, rfl, by simp [ClassDef.fields]⟩
  | function loc r | method loc r =>
    obtain ⟨id, params, body⟩ := r
    exact ⟨_, _, rfl, by simp [Routine.fields]⟩
  | _ => exact ⟨_, _, rfl, by simp⟩

theorem Stmt.ofDocument_document {s : Stmt} (h : NoReals s.nodes)
    (hn : s.toJson.nesting ≤ statementRoom + 1) : Stmt.ofDocument s.toJson.document = .ok s := by
  obtain ⟨kind, fields, heq, hkeys⟩ := s.toJson_eq
  have hread : Stmt.ofJson? s.toJson = some s := Stmt.reads s h
  rw [heq] at hn hread ⊢
  have hfields : fieldNestings fields ≤ statementRoom := by
    simp only [nodeObject, Json.nesting, fieldNestings, fieldNesting] at hn
    omega
  have hentries : Stmt.fieldsOfEntries false (fieldDocuments
      (("type", .string kind) :: ("loc", s.loc.toJson) :: fields)) none =
      .ok (("type", .string kind) :: ("loc", s.loc.toJson) :: fields) := by
    simp only [fieldDocuments, fieldDocument, Stmt.fieldsOfEntries]
    rw [Loc.ofDocument_document, fieldsOfEntries_documents hfields hkeys]
    rfl
  rw [nodeObject] at hread
  simp only [nodeObject, Json.document, Stmt.ofDocument, hentries, bind, Except.bind, hread]

theorem stmts_ofDocument {ss : List Stmt} (h : NoReals (stmtsNodes ss))
    (hn : nestings (stmtsToJson ss) ≤ statementRoom + 1) :
    (documents (stmtsToJson ss)).mapM Stmt.ofDocument = .ok ss := by
  induction ss with
  | nil => rfl
  | cons s ss ih =>
    rw [stmtsToJson, nestings, Nat.max_le] at hn
    rw [stmtsToJson, documents, mapM_cons, ofDocument_document h.left hn.1,
      ih h.right hn.2]
    rfl

/-- Reads a document as a program and writes that. -/
def Document.rewritten (d : Document) : Except ReadError Document :=
  (Program.ofDocument d).map fun t => t.toJson.document

/-- A tree without floats and doubles that nests no deeper than can be read is read as what it was
before it was written. So to read and to write again whatever is read as such a tree is idempotent. -/
theorem written_tree_reads {t : Program} (h : NoReals t.nodes)
    (hn : t.toJson.nesting ≤ statementRoom + 3) :
    Program.ofDocument t.toJson.document = .ok t ∧ ∀ d, Program.ofDocument d = .ok t →
      d.rewritten = .ok t.toJson.document ∧ (d.rewritten >>= Document.rewritten) = d.rewritten := by
  have hread : Program.ofDocument t.toJson.document = .ok t := by
    have hstmts : nestings (stmtsToJson t.body) ≤ statementRoom + 1 := by
      simp only [Program.toJson, Json.nesting, fieldNestings, fieldNesting] at hn
      omega
    have hbody : stmtsOfDocument (.array (documents (stmtsToJson t.body)) none) = .ok t.body := by
      rw [stmtsOfDocument, stmts_ofDocument h hstmts]
      rfl
    simp only [Program.toJson, Json.document, fieldDocuments, fieldDocument, Program.ofDocument,
      Program.ofEntries, hbody]
    rfl
  have hrewritten {d : Document} (hd : Program.ofDocument d = .ok t) :
      d.rewritten = .ok t.toJson.document := by
    rw [Document.rewritten, hd]
    rfl
  refine ⟨hread, fun d hd => ⟨hrewritten hd, ?_⟩⟩
  rw [hrewritten hd]
  exact hrewritten hread

/-- `foreach (x in () => -1) { } var f = function (a) { return a?.b; };` -/
def bothBodies : Program where
  body := [
    .foreach ⟨1, 2⟩ (.expr (.ident {} "x")) (.arrow {} ⟨none, [], .expr (.literal {} (.int (-1)))⟩)
      (.block {} []),
    .declare {} [⟨{}, some (.ident {} "f"), some (.function {} ⟨none, [.ident {} "a"],
      .stmt (.block {} [.returnValue {}
        (some (.attribute {} (.ident {} "a") (.ident {} "b") true))])⟩)⟩]]

theorem bothBodies_reads : Program.ofDocument bothBodies.toJson.document = .ok bothBodies :=
  (written_tree_reads (t := bothBodies) (by decide) (by decide)).1

end Adhoc
