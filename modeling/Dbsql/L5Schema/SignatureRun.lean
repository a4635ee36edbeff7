import Dbsql.L5Schema.Signature
/-!
# Every run announces its signatures

The values that a signature takes are placed on a line (`Placed`): each draw moves
`next_sig` forward by at most 256, and as long as fewer than `2 ^ 24` signatures have been
drawn two values are equal only when they stand at the same place. Between two statements
(`Settled`) the open transaction has changed the schema exactly when its signature stands
behind the committed one, and an announced signature is the one it has stored. The program
of a schema statement leaves this state between its first row and its signature (`Window`).

Results:
* `compile_ddl`, `compile_same`, `compile_plain`: what the statements are compiled to.
* `step_inv`: one step.
* `signature_run`: every run whose steps run into no defect.
* `signature_not_stored`: a CREATE TABLE that fails while it is compiled.
-/
namespace Dbsql.L5.Signature
open Dbsql.Core Dbsql.L1
open Dbsql.L5.WriteTxn (Parser GenDb vdbePrepareWrite codeVerifySchema vdbeConcludeWrite dbsqlTxnBegin
  dbsqlTxnCommit dbsqlTxnAbort parseBegin)

theorem int32_inj {x y : Int} (h : x < y + 2 ^ 32) (h' : y < x + 2 ^ 32) : int32 x = int32 y ↔ x = y := by
  unfold int32
  omega

theorem int32_add (x k : Int) : int32 (int32 x + k) = int32 (x + k) := by
  unfold int32
  omega

/-! ## What the generators of `WriteTxn` leave alone -/

/-- The call keeps the signatures and the transactions, and appends opcodes that satisfy `E`. -/
structure Emits (E : WriteTxn.Op → Prop) (p p' : Parser) : Prop where
  schemaSig : ∀ j, (p'.aDb j).schemaSig = (p.aDb j).schemaSig
  inTrans : ∀ j, (p'.aDb j).inTrans = (p.aDb j).inTrans
  prog : ∃ ops, p'.prog = p.prog ++ ops ∧ ∀ o ∈ ops, E o

section
variable {E : WriteTxn.Op → Prop} {p p' p'' : Parser}

theorem Emits.refl (p : Parser) : Emits E p p :=
  ⟨fun _ => rfl, fun _ => rfl, [], (List.append_nil _).symm, fun _ h => nomatch h⟩

theorem Emits.trans (h : Emits E p p') (h' : Emits E p' p'') : Emits E p p'' := by
  obtain ⟨ops, hops, hE⟩ := h.prog
  obtain ⟨ops', hops', hE'⟩ := h'.prog
  refine ⟨fun j => (h'.schemaSig j).trans (h.schemaSig j), fun j => (h'.inTrans j).trans (h.inTrans j),
    ops ++ ops', ?_, fun o ho => (List.mem_append.1 ho).elim (hE o) (hE' o)⟩
  rw [hops', hops, List.append_assoc]

theorem Emits.addOp (p : Parser) {o : WriteTxn.Op} (ho : E o) : Emits E p (p.addOp o) :=
  ⟨fun _ => rfl, fun _ => rfl, [o], rfl, fun _ h => List.mem_singleton.1 h ▸ ho⟩

theorem Emits.setDb (p : Parser) (k : Nat) {d : GenDb} (hs : d.schemaSig = (p.aDb k).schemaSig)
    (hi : d.inTrans = (p.aDb k).inTrans) : Emits E p (p.setDb k d) := by
  refine ⟨fun j => ?_, WriteTxn.setDb_inTrans hi, [], (List.append_nil _).symm, fun _ h => nomatch h⟩
  unfold WriteTxn.Parser.setDb
  dsimp only
  split
  · subst j
    exact hs
  · rfl

end

/-- The opcodes of `__vdbe_prepare_write`. -/
def NoEnd (o : WriteTxn.Op) : Prop := (ofGen o).ends = false

theorem codeVerifySchema_emits (p : Parser) (idb : Nat) : Emits NoEnd p (codeVerifySchema p idb) := by
  unfold codeVerifySchema
  split
  · have hop : Emits NoEnd p (p.addOp (.verifySchemaSignature idb (p.aDb idb).schemaSig)) := .addOp p rfl
    apply hop.trans
    apply Emits.setDb
    · rfl
    · rfl
  · exact .refl p

theorem lock_emits (p : Parser) (k : Nat) : Emits NoEnd p (p.lock k) := by
  apply Emits.setDb
  · rfl
  · rfl

theorem vdbePrepareWrite_emits (p : Parser) (checkpoint : Bool) (idb : Nat) :
    Emits NoEnd p (vdbePrepareWrite p checkpoint idb) := by
  fun_induction vdbePrepareWrite p checkpoint idb with
  | case1 p => exact .refl p
  | case2 p k _ _ p₁ p₂ p₃ _ ih =>
    have hop : Emits NoEnd p p₁ := .addOp p rfl
    exact ((hop.trans (lock_emits p₁ k)).trans (codeVerifySchema_emits p₂ k)).trans ih
  | case3 p k _ _ p₁ p₂ p₃ =>
    have hop : Emits NoEnd p p₁ := .addOp p rfl
    exact (hop.trans (lock_emits p₁ k)).trans (codeVerifySchema_emits p₂ k)
  | case4 p k =>
    have hop : Emits NoEnd p (p.addOp (.checkpoint k)) := .addOp p rfl
    exact hop.trans (lock_emits _ k)
  | case5 p => exact .refl p

theorem Emits.mono {E E' : WriteTxn.Op → Prop} {p p' : Parser} (h : Emits E p p') (hE : ∀ o, E o → E' o) :
    Emits E' p p' :=
  ⟨h.schemaSig, h.inTrans, h.prog.imp fun _ hops => ⟨hops.1, fun o ho => hE o (hops.2 o ho)⟩⟩

theorem vdbeConcludeWrite_emits (p : Parser) : Emits (fun _ => True) p (vdbeConcludeWrite p) := by
  rcases WriteTxn.vdbeConcludeWrite_cases p with h | h
  · rw [h]
    exact .refl p
  · rw [h]
    exact .addOp p trivial

theorem dbsqlTxnBegin_emits (p : Parser) (onError : Oe) (denied : Bool) :
    Emits (fun _ => True) p (dbsqlTxnBegin p onError denied) := by
  have hkeep : Emits (fun _ => True) p p := .refl p
  have hwrite := (vdbePrepareWrite_emits p false 0).mono fun _ _ => trivial
  unfold dbsqlTxnBegin
  split
  · exact hkeep
  · split
    · exact hkeep
    · split
      · exact ⟨hkeep.schemaSig, hkeep.inTrans, hkeep.prog⟩
      · exact ⟨hwrite.schemaSig, hwrite.inTrans, hwrite.prog⟩

theorem dbsqlTxnCommit_emits (p : Parser) (denied : Bool) :
    Emits (fun _ => True) p (dbsqlTxnCommit p denied) := by
  have hkeep : Emits (fun _ => True) p p := .refl p
  have hwrite := vdbeConcludeWrite_emits { p with flagInTrans := false }
  unfold dbsqlTxnCommit
  split
  · exact hkeep
  · split
    · exact hkeep
    · split
      · exact ⟨hkeep.schemaSig, hkeep.inTrans, hkeep.prog⟩
      · exact ⟨hwrite.schemaSig, hwrite.inTrans, hwrite.prog⟩

theorem dbsqlTxnAbort_emits (p : Parser) (denied : Bool) :
    Emits (fun _ => True) p (dbsqlTxnAbort p denied) := by
  have hkeep : Emits (fun _ => True) p p := .refl p
  have hwrite : Emits (fun _ => True) p (p.addOp (.rollback 0)) := .addOp p trivial
  unfold dbsqlTxnAbort
  split
  · exact hkeep
  · split
    · exact hkeep
    · split
      · exact ⟨hkeep.schemaSig, hkeep.inTrans, hkeep.prog⟩
      · exact ⟨hwrite.schemaSig, hwrite.inTrans, hwrite.prog⟩

theorem codeVerifySchema_nErr (p : Parser) (idb : Nat) : (codeVerifySchema p idb).nErr = p.nErr := by
  unfold codeVerifySchema
  split <;> rfl

theorem vdbePrepareWrite_nErr (p : Parser) (checkpoint : Bool) (idb : Nat) :
    (vdbePrepareWrite p checkpoint idb).nErr = p.nErr := by
  fun_induction vdbePrepareWrite p checkpoint idb with
  | case1 p => rfl
  | case2 p k _ _ p₁ p₂ p₃ _ ih =>
    rw [ih]
    exact codeVerifySchema_nErr p₂ k
  | case3 p k _ _ p₁ p₂ p₃ => exact codeVerifySchema_nErr p₂ k
  | case4 p k => rfl
  | case5 p => rfl

theorem vdbeConcludeWrite_nErr (p : Parser) : (vdbeConcludeWrite p).nErr = p.nErr := by
  rcases WriteTxn.vdbeConcludeWrite_cases p with h | h
  · rw [h]
  · rw [h]
    rfl

/-! ## What is compiled -/

/-- The steps of the code generator that draw no signature change nothing else. -/
structure Same (h h' : Handle) : Prop where
  disk : h'.disk = h.disk
  txn : h'.txn = h.txn
  schemaSig : h'.schemaSig = h.schemaSig
  inTrans : h'.inTrans = h.inTrans
  nextSig : h'.nextSig = h.nextSig
  readSig : h'.readSig = h.readSig
  draws : h'.draws = h.draws
  initialized : h'.initialized = h.initialized
  schemaLoaded : h'.schemaLoaded = h.schemaLoaded
  internChanges : h.internChanges = true → h'.internChanges = true

theorem Same.refl (h : Handle) : Same h h := ⟨rfl, rfl, rfl, rfl, rfl, rfl, rfl, rfl, rfl, id⟩

theorem Same.trans {h h' h'' : Handle} (s : Same h h') (t : Same h' h'') : Same h h'' :=
  ⟨t.disk.trans s.disk, t.txn.trans s.txn, t.schemaSig.trans s.schemaSig, t.inTrans.trans s.inTrans,
    t.nextSig.trans s.nextSig, t.readSig.trans s.readSig, t.draws.trans s.draws,
    t.initialized.trans s.initialized, t.schemaLoaded.trans s.schemaLoaded,
    fun hi => t.internChanges (s.internChanges hi)⟩

/-- Code that has been extended by opcodes that satisfy `R`. -/
structure Grows (R : Op → Prop) (c c' : Code) : Prop where
  same : Same c.h c'.h
  ops : ∃ new, c'.ops = c.ops ++ new ∧ ∀ o ∈ new, R o

section
variable {R : Op → Prop} {c c' c'' : Code}

theorem Grows.refl (c : Code) : Grows R c c :=
  ⟨.refl _, [], (List.append_nil _).symm, fun _ h => nomatch h⟩

theorem Grows.trans (h : Grows R c c') (h' : Grows R c' c'') : Grows R c c'' := by
  obtain ⟨new, hnew, hR⟩ := h.ops
  obtain ⟨new', hnew', hR'⟩ := h'.ops
  refine ⟨h.same.trans h'.same, new ++ new', ?_, fun o ho => (List.mem_append.1 ho).elim (hR o) (hR' o)⟩
  rw [hnew', hnew, List.append_assoc]

theorem Grows.addOp (c : Code) {o : Op} (ho : R o) : Grows R c { c with ops := c.ops ++ [o] } :=
  ⟨.refl _, [o], rfl, fun _ h => List.mem_singleton.1 h ▸ ho⟩

theorem Grows.gen {E : WriteTxn.Op → Prop} {f : Parser → Parser} (c : Code) (hf : ∀ p, Emits E p (f p))
    (hE : ∀ o, E o → R (ofGen o)) : Grows R c (c.gen f) := by
  have h := hf ⟨c.h.aDb, c.h.flagInTrans, c.h.onError, c.nErr, c.trigStack, []⟩
  obtain ⟨ops, hops, hall⟩ := h.prog
  refine ⟨⟨rfl, rfl, h.schemaSig 0, h.inTrans 0, rfl, rfl, rfl, rfl, rfl, id⟩, ops.map ofGen, ?_, ?_⟩
  · unfold Code.gen
    dsimp only
    rw [hops]
    rfl
  · intro o ho
    obtain ⟨o', ho', rfl⟩ := List.mem_map.1 ho
    exact hE o' (hall o' ho')

end

@[simp] theorem ofGen_isMaster (o : WriteTxn.Op) : (ofGen o).isMaster = false := by cases o <;> rfl
@[simp] theorem ofGen_isSet (o : WriteTxn.Op) : (ofGen o).isSet = false := by cases o <;> rfl

/-- The calls that come before a statement stores its signature. -/
def Event.Early : Event → Prop
  | .prepareWrite .. | .other | .master _ | .internChanges => True
  | _ => False

/-- The calls that cannot fail by themselves. -/
def Event.Tame : Event → Prop
  | .begin .. | .commit _ | .rollback _ => False
  | _ => True

/-- The opcodes that a call may emit. -/
def Allowed (e : Event) (o : Op) : Prop :=
  o.isSet = false ∧ (e.Plain → o.isMaster = false) ∧ (e.Early → o.ends = false)

/-- Any call but that of `__change_schema_signature`, or that one when it draws nothing. -/
theorem emit_grows (n : Fin 256) (c : Code) (e : Event)
    (he : e = .changeSchemaSignature → c.h.nextSig ≠ c.h.schemaSig) :
      Grows (Allowed e) c (emit n c e) := by
  cases e with
  | prepareWrite checkpoint idb =>
    exact .gen c (fun p => vdbePrepareWrite_emits p checkpoint idb) fun o ho =>
      ⟨ofGen_isSet o, fun _ => ofGen_isMaster o, fun _ => ho⟩
  | verifySchema idb =>
    exact .gen (E := NoEnd) (f := (codeVerifySchema · idb)) c
      (fun p => codeVerifySchema_emits p idb) fun o _ =>
      ⟨ofGen_isSet o, fun _ => ofGen_isMaster o, nofun⟩
  | concludeWrite =>
    exact .gen c vdbeConcludeWrite_emits fun o _ => ⟨ofGen_isSet o, fun _ => ofGen_isMaster o, nofun⟩
  | pushTrigger => exact ⟨.refl _, [], (List.append_nil _).symm, fun _ h => nomatch h⟩
  | popTrigger => exact ⟨.refl _, [], (List.append_nil _).symm, fun _ h => nomatch h⟩
  | begin onError denied =>
    exact .gen c (fun p => dbsqlTxnBegin_emits p onError denied) fun o _ =>
      ⟨ofGen_isSet o, fun _ => ofGen_isMaster o, nofun⟩
  | commit denied =>
    exact .gen c (fun p => dbsqlTxnCommit_emits p denied) fun o _ =>
      ⟨ofGen_isSet o, fun _ => ofGen_isMaster o, nofun⟩
  | rollback denied =>
    exact .gen c (fun p => dbsqlTxnAbort_emits p denied) fun o _ =>
      ⟨ofGen_isSet o, fun _ => ofGen_isMaster o, nofun⟩
  | other => exact .addOp c ⟨rfl, fun _ => rfl, fun _ => rfl⟩
  | master w => exact .addOp c ⟨rfl, nofun, fun _ => rfl⟩
  | changeSchemaSignature =>
    unfold emit Code.changeSchemaSignature
    dsimp only
    rw [if_neg (he rfl)]
    exact .refl c
  | internChanges =>
    unfold emit
    dsimp only
    split
    · exact .refl c
    · exact ⟨⟨rfl, rfl, rfl, rfl, rfl, rfl, rfl, rfl, rfl, fun _ => rfl⟩, [], (List.append_nil _).symm,
        fun _ h => nomatch h⟩

theorem emitAll_grows {R : Op → Prop} (n : Fin 256) (es : List Event) {c : Code}
    (hes : .changeSchemaSignature ∈ es → c.h.nextSig ≠ c.h.schemaSig)
    (hR : ∀ e ∈ es, ∀ o, Allowed e o → R o) : Grows R c (emitAll n c es) := by
  induction es generalizing c with
  | nil => exact .refl c
  | cons e es ih =>
    have h := emit_grows n c e fun he => hes (he ▸ List.mem_cons_self ..)
    have hone : Grows R c (emit n c e) :=
      ⟨h.same, h.ops.imp fun _ hops => ⟨hops.1, fun o ho => hR e (List.mem_cons_self ..) o (hops.2 o ho)⟩⟩
    refine hone.trans (ih (fun hmem => ?_) fun e' he' => hR e' (List.mem_cons_of_mem _ he'))
    rw [hone.same.nextSig, hone.same.schemaSig]
    exact hes (List.mem_cons_of_mem _ hmem)

theorem emit_nErr (n : Fin 256) (c : Code) {e : Event} (he : e.Tame) : (emit n c e).nErr = c.nErr := by
  cases e with
  | prepareWrite checkpoint idb => exact vdbePrepareWrite_nErr _ checkpoint idb
  | verifySchema idb => exact codeVerifySchema_nErr _ idb
  | concludeWrite => exact vdbeConcludeWrite_nErr _
  | changeSchemaSignature =>
    unfold emit Code.changeSchemaSignature
    dsimp only
    split <;> rfl
  | internChanges =>
    unfold emit
    dsimp only
    split <;> rfl
  | begin | commit | rollback => exact he.elim
  | pushTrigger | popTrigger | other | master => rfl

theorem emitAll_nErr (n : Fin 256) {es : List Event} (c : Code) (hes : ∀ e ∈ es, e.Tame) :
    (emitAll n c es).nErr = c.nErr := by
  induction es generalizing c with
  | nil => rfl
  | cons e es ih =>
    have h := ih (emit n c e) fun e' he' => hes e' (List.mem_cons_of_mem _ he')
    exact h.trans (emit_nErr n c (hes e (List.mem_cons_self ..)))

/-- Before a statement is compiled. -/
theorem same_parseBegin (h : Handle) :
    Same h { h with aDb := (parseBegin ⟨h.aDb, h.flagInTrans, h.onError, 0, 0, []⟩ fun i =>
      (h.aDb i).inTrans).aDb } :=
  ⟨rfl, rfl, rfl, rfl, rfl, rfl, rfl, rfl, rfl, id⟩

/-- A statement that draws no signature. -/
theorem compile_same {h : Handle} {R : Op → Prop} (es : List Event) (explain : Bool) (n : Fin 256)
    (hes : ¬ Advances h es) (hR : ∀ e ∈ es, ∀ o, Allowed e o → R o) :
    Same h (compile h explain n es).h ∧ ∀ o ∈ (compile h explain n es).ops, R o := by
  have h0 := same_parseBegin h
  have hgrow := emitAll_grows n es (R := R)
    (c := ⟨{ h with aDb := (parseBegin ⟨h.aDb, h.flagInTrans, h.onError, 0, 0, []⟩ fun i =>
      (h.aDb i).inTrans).aDb },
      explain, 0, 0, []⟩) (fun hmem heq => hes ⟨heq, hmem⟩) hR
  obtain ⟨new, hnew, hall⟩ := hgrow.ops
  refine ⟨h0.trans hgrow.same, fun o ho => hall o ?_⟩
  rw [List.nil_append] at hnew
  rw [← hnew]
  exact ho

/-- The opcodes that end a transaction come after those that write the schema table. -/
def Ordered (ops : List Op) : Prop := ∃ pre post, ops = pre ++ post ∧ (∀ o ∈ pre, o.ends = false) ∧
  ∀ o ∈ post, o.isMaster = false

theorem ordered_of_plain {ops : List Op} (h : ∀ o ∈ ops, o.isMaster = false) : Ordered ops :=
  ⟨[], ops, rfl, nofun, h⟩

theorem Ordered.tail {o : Op} {ops : List Op} (h : Ordered (o :: ops)) : Ordered ops := by
  obtain ⟨pre, post, heq, hpre, hpost⟩ := h
  cases pre with
  | nil =>
    rw [List.nil_append] at heq
    exact ordered_of_plain fun o' ho' => hpost o' (heq ▸ List.mem_cons_of_mem _ ho')
  | cons o' pre =>
    rw [List.cons_append, List.cons.injEq] at heq
    exact ⟨pre, post, heq.2, fun o' ho' => hpre o' (List.mem_cons_of_mem _ ho'), hpost⟩

theorem Ordered.of_ends {o : Op} {ops : List Op} (h : Ordered (o :: ops)) (ho : o.ends = true) :
    ∀ o' ∈ ops, o'.isMaster = false := by
  obtain ⟨pre, post, heq, hpre, hpost⟩ := h
  cases pre with
  | nil =>
    rw [List.nil_append] at heq
    exact fun o' ho' => hpost o' (heq ▸ List.mem_cons_of_mem _ ho')
  | cons o' pre =>
    rw [List.cons_append, List.cons.injEq] at heq
    have hfalse := hpre o' (List.mem_cons_self ..)
    rw [← heq.1, ho] at hfalse
    cases hfalse

/-- The statements that change the schema: first the rows, then the signature. -/
structure Ddl (es pre post : List Event) : Prop where
  events : es = pre ++ .changeSchemaSignature :: post
  early : ∀ e ∈ pre, e.Early
  writes : ∃ w, .master w ∈ pre
  plain : ∀ e ∈ post, e.Plain
  tame : ∀ e ∈ post, e.Tame

theorem masterWrite_early (iDb : Nat) (w : MasterWrite) : ∀ e ∈ masterWrite iDb w, e.Early := by
  unfold masterWrite
  split <;> simp [Event.Early]

theorem masterWrite_plain {iDb : Nat} (h : iDb ≠ 0) (w : MasterWrite) :
    ∀ e ∈ masterWrite iDb w, e.Plain := by
  simp [masterWrite, h, Event.Plain]

/-- A statement changes the schema of the main database, or nothing of it. -/
def Shape (es : List Event) : Prop := (∀ e ∈ es, e.Plain) ∨ ∃ pre post, Ddl es pre post

theorem shape_of {iDb : Nat} {front back : List Event} (hearly : ∀ e ∈ front, e.Early)
    (hplain : iDb ≠ 0 → ∀ e ∈ front, e.Plain) {w : MasterWrite} (hw : ∀ e ∈ masterWrite iDb w, e ∈ front)
    (hback : ∀ e ∈ back, e.Plain ∧ e.Tame) : Shape (front ++ changeSignature iDb ++ back) := by
  by_cases hi : iDb = 0
  · subst hi
    refine .inr ⟨front, back, ?_, hearly, ⟨w, hw _ (List.mem_singleton.2 rfl)⟩, fun e he =>
      (hback e he).1,
      fun e he => (hback e he).2⟩
    simp [changeSignature]
  · refine .inl fun e he => ?_
    rw [changeSignature, if_neg hi, List.append_nil] at he
    exact (List.mem_append.1 he).elim (hplain hi e) fun h => (hback e h).1

theorem Stmt.shape (stmt : Stmt) : Shape stmt.events := by
  have hsingle : ∀ e, Event.Plain e → ∀ e' ∈ [e], e'.Plain := by simp
  cases stmt with
  | createTable name view autoIndices iDb =>
    refine shape_of (w := .put "" "" "") ?_ (fun hi => ?_) ?_ (by simp [Event.Plain, Event.Tame])
    · simp only [List.mem_append, List.mem_cons, List.not_mem_nil, or_false, List.mem_flatMap]
      rintro e ((((rfl | rfl) | h) | ⟨idx, -, rfl | h⟩) | h)
      · trivial
      · trivial
      · exact masterWrite_early _ _ e h
      · trivial
      · exact masterWrite_early _ _ e h
      · exact masterWrite_early _ _ e h
    · simp only [List.mem_append, List.mem_cons, List.not_mem_nil, or_false, List.mem_flatMap]
      rintro e ((((rfl | rfl) | h) | ⟨idx, -, rfl | h⟩) | h)
      · trivial
      · trivial
      · exact masterWrite_plain hi _ e h
      · trivial
      · exact masterWrite_plain hi _ e h
      · exact masterWrite_plain hi _ e h
    · intro e he
      simp [he]
  | dropTable name iDb =>
    refine shape_of (w := .deleteTable name) ?_ (fun hi => ?_) ?_ (by simp [Event.Plain, Event.Tame])
    · simpa [or_imp, forall_and, Event.Early] using masterWrite_early iDb _
    · simpa [or_imp, forall_and, Event.Plain] using masterWrite_plain hi _
    · intro e he
      simp [he]
  | createIndex name tblName iDb =>
    refine shape_of (w := .put "index" name tblName) ?_ (fun hi => ?_) ?_ (by simp [Event.Plain, Event.Tame])
    · simpa [or_imp, forall_and, Event.Early] using masterWrite_early iDb _
    · simpa [or_imp, forall_and, Event.Plain] using masterWrite_plain hi _
    · intro e he
      simp [he]
  | dropIndex name iDb =>
    refine shape_of (w := .deleteIndex name) ?_ (fun hi => ?_) ?_ (by simp [Event.Plain, Event.Tame])
    · simpa [or_imp, forall_and, Event.Early] using masterWrite_early iDb _
    · simpa [or_imp, forall_and, Event.Plain] using masterWrite_plain hi _
    · intro e he
      simp [he]
  | createTrigger name tblName iDb =>
    refine shape_of (w := .put "trigger" name tblName) ?_ (fun hi => ?_) ?_ (by simp [Event.Plain, Event.Tame])
    · simpa [or_imp, forall_and, Event.Early] using masterWrite_early iDb _
    · simpa [or_imp, forall_and, Event.Plain] using masterWrite_plain hi _
    · intro e he
      simp [he]
  | dropTrigger name iDb =>
    refine shape_of (w := .deleteTrigger name) ?_ (fun hi => ?_) ?_ (by simp [Event.Plain, Event.Tame])
    · simpa [or_imp, forall_and, Event.Early] using masterWrite_early iDb _
    · simpa [or_imp, forall_and, Event.Plain] using masterWrite_plain hi _
    · intro e he
      simp [he]
  | begin onError denied => exact .inl (hsingle _ trivial)
  | commit denied => exact .inl (hsingle _ trivial)
  | rollback denied => exact .inl (hsingle _ trivial)
  | other es plain => exact .inl plain

theorem Event.Early.ne {e : Event} (h : e.Early) : e ≠ .changeSchemaSignature := by
  rintro rfl
  exact h

theorem Event.Plain.ne {e : Event} (h : e.Plain) : e ≠ .changeSchemaSignature := by
  rintro rfl
  exact h

theorem Event.Early.tame {e : Event} (h : e.Early) : e.Tame := by
  cases e <;> first | exact h.elim | trivial

theorem emitAll_append (n : Fin 256) (c : Code) (es es' : List Event) :
    emitAll n c (es ++ es') = emitAll n (emitAll n c es) es' := List.foldl_append

/-- A call that writes the schema table emits the write. -/
theorem master_mem {n : Fin 256} {c : Code} {es : List Event} {w : MasterWrite} (hes : ∀ e ∈ es, e.Early)
    (hw : .master w ∈ es) : .master w ∈ (emitAll n c es).ops := by
  obtain ⟨es₁, es₂, rfl⟩ := List.append_of_mem hw
  have hgrow : Grows (fun _ => True) (emit n (emitAll n c es₁) (.master w))
      (emitAll n (emit n (emitAll n c es₁) (.master w)) es₂) :=
    emitAll_grows n _ (fun hmem => absurd rfl (hes _ (by simp [hmem])).ne) fun _ _ _ _ => trivial
  obtain ⟨new, hnew, -⟩ := hgrow.ops
  have heq : emitAll n c (es₁ ++ .master w :: es₂) =
      emitAll n (emit n (emitAll n c es₁) (.master w)) es₂ := emitAll_append n c es₁ _
  rw [heq, hnew]
  simp [emit]

theorem compile_plain {h : Handle} {es : List Event} (explain : Bool) (n : Fin 256)
    (hes : ∀ e ∈ es, e.Plain) : Same h (compile h explain n es).h ∧
      ∀ o ∈ (compile h explain n es).ops, o.isSet = false ∧ o.isMaster = false :=
  compile_same _ explain n (fun hadv => absurd rfl (hes _ hadv.2).ne) fun e he _ ho =>
    ⟨ho.1, ho.2.1 (hes e he)⟩

theorem compile_nErr {h : Handle} {es : List Event} (explain : Bool) (n : Fin 256)
    (hes : ∀ e ∈ es, e.Tame) : (compile h explain n es).nErr = 0 := emitAll_nErr n _ hes

theorem Ddl.all_tame {es pre post : List Event} (hd : Ddl es pre post) : ∀ e ∈ es, e.Tame := by
  intro e he
  rw [hd.events] at he
  rcases List.mem_append.1 he with he | he
  · exact (hd.early e he).tame
  · rcases List.mem_cons.1 he with rfl | he
    · trivial
    · exact hd.tame e he

/-- A further schema statement of a transaction. -/
theorem compile_ddl_again {h : Handle} {es pre post : List Event} (explain : Bool) (n : Fin 256)
    (hd : Ddl es pre post) (hne : h.nextSig ≠ h.schemaSig) : Same h (compile h explain n es).h ∧
      (∀ o ∈ (compile h explain n es).ops, o.isSet = false) ∧ Ordered (compile h explain n es).ops := by
  have hsame := compile_same es explain n (fun hadv => hne hadv.1) (R := fun o => o.isSet = false)
    fun e _ o ho => ho.1
  refine ⟨hsame.1, hsame.2, ?_⟩
  rw [hd.events]
  unfold compile
  dsimp only
  rw [emitAll_append]
  have hpre := emitAll_grows n pre (R := fun o => o.ends = false)
    (c := ⟨{ h with aDb := (parseBegin ⟨h.aDb, h.flagInTrans, h.onError, 0, 0, []⟩ fun i =>
      (h.aDb i).inTrans).aDb },
      explain, 0, 0, []⟩) (fun _ => hne) fun e he o ho => ho.2.2 (hd.early e he)
  obtain ⟨new, hnew, hends⟩ := hpre.ops
  generalize emitAll n _ pre = c at hpre hnew
  have hskip : emitAll n c (.changeSchemaSignature :: post) = emitAll n c post := by
    have hno : c.changeSchemaSignature n = c := if_neg (by rwa [hpre.same.nextSig, hpre.same.schemaSig])
    change emitAll n (c.changeSchemaSignature n) post = _
    rw [hno]
  rw [hskip]
  have hpost : Grows (fun o => o.isMaster = false) c (emitAll n c post) :=
    emitAll_grows n _ (fun hmem => absurd rfl (hd.plain _ hmem).ne) fun e he o ho =>
      ho.2.1 (hd.plain e he)
  obtain ⟨new', hnew', hmaster⟩ := hpost.ops
  exact ⟨new, new', by rw [hnew', hnew]; rfl, hends, hmaster⟩

/-- A signature is drawn. -/
def Handle.draw (h : Handle) (sig : Int) : Handle :=
  { h with nextSig := sig, internChanges := true, draws := h.draws + 1 }

theorem Same.draw {h h' : Handle} (s : Same h h') (sig : Int) : Same (h.draw sig) (h'.draw sig) :=
  ⟨s.disk, s.txn, s.schemaSig, s.inTrans, rfl, s.readSig, congrArg (· + 1) s.draws, s.initialized,
    s.schemaLoaded,
    fun _ => rfl⟩

/-- A program that writes the schema table and then stores `sig`. -/
structure Stores (sig : Int) (ops pre post : List Op) : Prop where
  ops : ops = pre ++ .setSchemaSignature sig :: post
  early : ∀ o ∈ pre, o.isSet = false ∧ o.ends = false
  late : ∀ o ∈ post, o.isSet = false ∧ o.isMaster = false

/-- The first schema statement of a transaction. -/
theorem compile_ddl {h : Handle} {es pre post : List Event} (explain : Bool) (n : Fin 256)
    (hd : Ddl es pre post) (heq : h.nextSig = h.schemaSig) :
    Same (h.draw (int32 (h.schemaSig + n + 1))) (compile h explain n es).h ∧
      ∃ r r', Stores (int32 (h.schemaSig + n + 1)) (compile h explain n es).ops r r' ∧
        ∃ o ∈ r, o.isMaster = true := by
  obtain ⟨w, hw⟩ := hd.writes
  rw [hd.events]
  unfold compile
  dsimp only
  have hsame := same_parseBegin h
  rw [emitAll_append]
  generalize { h with aDb := (parseBegin ⟨h.aDb, h.flagInTrans, h.onError, 0, 0, []⟩ fun i =>
    (h.aDb i).inTrans).aDb } =
    h₀ at hsame
  have hpre : Grows (fun o => o.isSet = false ∧ o.ends = false) ⟨h₀, explain, 0, 0, []⟩ _ :=
    emitAll_grows n pre (fun hmem => absurd rfl (hd.early _ hmem).ne) fun e he o ho =>
      ⟨ho.1, ho.2.2 (hd.early e he)⟩
  have hmaster := master_mem (n := n) (c := ⟨h₀, explain, 0, 0, []⟩) hd.early hw
  obtain ⟨new, hnew, hearly⟩ := hpre.ops
  rw [List.nil_append] at hnew
  have hsame' := hsame.trans hpre.same
  generalize emitAll n _ pre = c at hpre hnew hmaster hsame'
  have hdraw : c.changeSchemaSignature n = { c with
      h := c.h.draw (int32 (h.schemaSig + n + 1))
      ops := c.ops ++ [.other, .setSchemaSignature (int32 (h.schemaSig + n + 1))] } := by
    unfold Code.changeSchemaSignature
    rw [if_pos (by rw [hsame'.nextSig, hsame'.schemaSig, heq]), hsame'.schemaSig]
    rfl
  have hstep : emitAll n c (.changeSchemaSignature :: post) =
    emitAll n (c.changeSchemaSignature n) post := rfl
  rw [hstep, hdraw]
  have hpost := emitAll_grows n post (R := fun o => o.isSet = false ∧ o.isMaster = false)
    (c := { c with
      h := c.h.draw (int32 (h.schemaSig + n + 1))
      ops := c.ops ++ [.other, .setSchemaSignature (int32 (h.schemaSig + n + 1))] })
    (fun hmem => absurd rfl (hd.plain _ hmem).ne) fun e he o ho => ⟨ho.1, ho.2.1 (hd.plain e he)⟩
  obtain ⟨new', hnew', hlate⟩ := hpost.ops
  refine ⟨(hsame'.draw _).trans hpost.same, new ++ [.other], new', ⟨?_, ?_, hlate⟩, .master w, ?_, rfl⟩
  · rw [hnew']
    simp [hnew]
  · intro o ho
    rcases List.mem_append.1 ho with ho | ho
    · exact hearly o ho
    · rw [List.mem_singleton.1 ho]
      exact ⟨rfl, rfl⟩
  · rw [← hnew]
    exact List.mem_append_left _ hmaster

/-! ## Where the signatures stand -/

/-- The committed signature, the one that the handle sees, `schema_sig` and `next_sig` stand at
`d`, `w`, `a` and `n`. -/
structure Placed (b : Int) (h : Handle) (d w a n : Int) : Prop where
  disk : h.disk.sig = int32 d
  view : h.view.sig = int32 w
  schemaSig : h.schemaSig = int32 a
  nextSig : h.nextSig = int32 n
  known : h.schemaSig = h.readSig
  low : b ≤ d ∧ d ≤ a
  order : d ≤ w ∧ w ≤ n ∧ a ≤ n
  high : n ≤ b + 256 * h.draws
  few : h.draws < 2 ^ 24
  closed : h.txn = none → w = d
  inTrans : h.txn.isSome = true → h.inTrans = true
  intern : n ≠ a → h.internChanges = true ∨ h.schemaLoaded = false
  loaded : h.initialized = true → h.schemaLoaded = true
  rows : h.disk.rows <+: h.view.rows

/-- The open transaction has changed the schema table when it has stored a signature. -/
structure Consistent (h : Handle) (d w a n : Int) : Prop where
  changed : h.view.rows ≠ h.disk.rows ↔ d < w
  reread : n = a → d < w → a = w

/-- Between two statements: an announced signature is stored by the open transaction, unless the
schema is to be read again. -/
structure Settled (h : Handle) (d w a n : Int) : Prop extends Consistent h d w a n where
  stored : n ≠ a → h.schemaLoaded = false ∨ d < w ∧ w = n

section
variable {b d w a n : Int} {h h' : Handle}

/-- What neither the places nor the promises depend on. -/
structure Still (h h' : Handle) : Prop where
  disk : h'.disk = h.disk
  view : h'.view = h.view
  schemaSig : h'.schemaSig = h.schemaSig
  nextSig : h'.nextSig = h.nextSig
  readSig : h'.readSig = h.readSig
  draws : h'.draws = h.draws
  schemaLoaded : h'.schemaLoaded = h.schemaLoaded
  initialized : h'.initialized = true → h.initialized = true
  internChanges : h.internChanges = true → h'.internChanges = true
  txn : h.txn.isSome = true → h'.txn.isSome = true
  inTrans : h'.txn.isSome = true → h'.inTrans = true

theorem Placed.still (p : Placed b h d w a n) (s : Still h h') : Placed b h' d w a n where
  disk := s.disk ▸ p.disk
  view := s.view ▸ p.view
  schemaSig := s.schemaSig ▸ p.schemaSig
  nextSig := s.nextSig ▸ p.nextSig
  known := by rw [s.schemaSig, s.readSig, p.known]
  low := p.low
  order := p.order
  high := s.draws ▸ p.high
  few := s.draws ▸ p.few
  closed hn := p.closed (by
    cases ht : h.txn with
    | none => rfl
    | some t =>
      have hsome := s.txn (by rw [ht]; rfl)
      rw [hn] at hsome
      cases hsome)
  inTrans := s.inTrans
  intern hne := (p.intern hne).imp s.internChanges fun hl => s.schemaLoaded.trans hl
  loaded hi := s.schemaLoaded.trans (p.loaded (s.initialized hi))
  rows := by
    rw [s.disk, s.view]
    exact p.rows

theorem Consistent.still (c : Consistent h d w a n) (s : Still h h') : Consistent h' d w a n :=
  ⟨by rw [s.view, s.disk]; exact c.changed, c.reread⟩

theorem Settled.still (c : Settled h d w a n) (s : Still h h') : Settled h' d w a n :=
  ⟨c.toConsistent.still s, fun hne => (c.stored hne).imp_left fun hl => s.schemaLoaded.trans hl⟩

theorem Same.still (s : Same h h') (p : Placed b h d w a n) : Still h h' where
  disk := s.disk
  view := by
    unfold Handle.view
    rw [s.txn, s.disk]
  schemaSig := s.schemaSig
  nextSig := s.nextSig
  readSig := s.readSig
  draws := s.draws
  schemaLoaded := s.schemaLoaded
  initialized hi := s.initialized ▸ hi
  internChanges := s.internChanges
  txn hs := s.txn ▸ hs
  inTrans hs := s.inTrans.trans (p.inTrans (s.txn ▸ hs))

/-- Two of the values are equal only at the same place. -/
theorem Placed.int32_eq (p : Placed b h d w a n) {x y : Int} (hx : b ≤ x ∧ x ≤ n) (hy : b ≤ y ∧ y ≤ n) :
    int32 x = int32 y ↔ x = y := by
  have := p.high
  have := p.few
  apply int32_inj <;> omega

theorem Placed.next_eq (p : Placed b h d w a n) : h.nextSig = h.schemaSig ↔ n = a := by
  have := p.order
  have := p.low
  rw [p.nextSig, p.schemaSig]
  exact p.int32_eq (by omega) (by omega)

theorem Placed.view_none (hn : h.txn = none) : h.view = h.disk := by
  unfold Handle.view
  rw [hn]
  rfl

/-! ### Forgetting and reading the schema -/

theorem Placed.reset (p : Placed b h d w a n) : Placed b (h.resetInternalSchema 0) d w a n :=
  { p with intern := fun _ => .inr rfl, loaded := nofun }

theorem Consistent.reset (c : Consistent h d w a n) : Settled (h.resetInternalSchema 0) d w a n :=
  { c with stored := fun _ => .inl rfl }

theorem rollbackInternalChanges_inv (p : Placed b h d w a n) (c : Consistent h d w a n) :
    Placed b h.rollbackInternalChanges d w a n ∧ Settled h.rollbackInternalChanges d w a n := by
  unfold Handle.rollbackInternalChanges
  split
  · exact ⟨p.reset, c.reset⟩
  · rename_i hi
    exact ⟨p, c, fun hne => .inl ((p.intern hne).resolve_left hi)⟩

theorem vdbeReset_inv (undo : Bool) (oe : Oe) (p : Placed b h d w a n) (c : Consistent h d w a n) :
    Placed b (h.vdbeReset undo oe) d w a n ∧ Settled (h.vdbeReset undo oe) d w a n := by
  unfold Handle.vdbeReset
  dsimp only
  apply rollbackInternalChanges_inv
  · split
    · exact { p with }
    · exact p
  · split
    · exact { c with }
    · exact c

/-- `__commit_internal_changes` while no signature is announced. -/
theorem commitInternalChanges_inv (p : Placed b h d w n n) (c : Settled h d w n n) :
    Placed b h.commitInternalChanges d w n n ∧ Settled h.commitInternalChanges d w n n := by
  have hsig : h.nextSig = h.schemaSig := p.next_eq.2 rfl
  refine ⟨{ p with schemaSig := p.nextSig, known := hsig.trans p.known, intern := fun h => absurd rfl h }, { c with }⟩

/-- The read of the signature. -/
theorem readSignature_inv {ok : Bool} (p : Placed b h d w a n) (c : Settled h d w a n)
    (hp : ok = true ∨ h.schemaSig = h.view.sig) :
    Placed b (h.readSignature ok) d w w w ∧ Settled (h.readSignature ok) d w w w := by
  have horder := p.order
  have hlow := p.low
  have hhigh := p.high
  have hsig : (if ok then h.view.sig else h.schemaSig) = h.view.sig := by
    rcases hp with hp | hp
    · rw [if_pos hp]
    · rw [hp, ite_self]
  unfold Handle.readSignature
  rw [hsig]
  refine ⟨?_, { c with reread := fun _ _ => rfl, stored := fun h => absurd rfl h }⟩
  exact
    { p with
      schemaSig := p.view
      nextSig := p.view
      known := rfl
      low := ⟨hlow.1, horder.1⟩
      order := ⟨horder.1, Int.le_refl w, Int.le_refl w⟩
      high := Int.le_trans horder.2.1 hhigh
      intern := fun h => absurd rfl h }

theorem initAttached_inv (env : Handle.InitEnv) (p : Placed b h d w n n) (c : Settled h d w n n)
    (hl : h.schemaLoaded = true) :
    Placed b (h.initAttached env).1 d w n n ∧ Settled (h.initAttached env).1 d w n n := by
  unfold Handle.initAttached
  split
  · have pinit : Placed b { h with initialized := true } d w n n := { p with loaded := fun _ => hl }
    have cinit : Settled { h with initialized := true } d w n n := { c with }
    exact commitInternalChanges_inv pinit cinit
  · exact ⟨{ p with intern := fun _ => .inl rfl, loaded := nofun }, { c with }⟩

/-- `__init_databases` reads the signature that the handle sees, or keeps the one it has. -/
theorem initDatabases_inv (env : Handle.InitEnv) (p : Placed b h d w a n) (c : Settled h d w a n)
    (hp : InitProper h env) : ∃ m, Placed b (h.initDatabases env).1 d w m m ∧
      Settled (h.initDatabases env).1 d w m m := by
  unfold Handle.initDatabases
  unfold InitProper at hp
  split at hp
  · rename_i hl
    have hna : n = a := p.next_eq.1 hp
    subst hna
    rw [if_pos hl]
    exact ⟨n, initAttached_inv env p c hl⟩
  · rename_i hl
    obtain ⟨pread, cread⟩ := readSignature_inv p c hp
    rw [if_neg hl]
    unfold Handle.initDbFile
    refine ⟨w, ?_⟩
    dsimp only
    cases env.main with
    | false => exact ⟨{ pread.reset with loaded := nofun }, { cread.reset with }⟩
    | true =>
      refine initAttached_inv env ?_ ?_ rfl
      · exact { pread with intern := fun h => absurd rfl h, loaded := fun _ => rfl }
      · exact { cread with stored := fun h => absurd rfl h }

theorem attach_inv {env : Handle.InitEnv} {opens : Bool} (p : Placed b h d w a n) (c : Settled h d w a n)
    (hp : opens = true → InitProper h env) :
    ∃ a' n', Placed b (h.attach opens env) d w a' n' ∧ Settled (h.attach opens env) d w a' n' := by
  have p0 : Placed b { h with initialized := false } d w a n := { p with loaded := nofun }
  have c0 : Settled { h with initialized := false } d w a n := { c with }
  unfold Handle.attach
  dsimp only
  cases opens with
  | false => exact ⟨a, n, p0, c0⟩
  | true =>
    obtain ⟨m, pm, cm⟩ := initDatabases_inv env p0 c0 (hp rfl)
    refine ⟨m, m, ?_⟩
    simp only [Bool.not_true, Bool.false_eq_true, if_false]
    split
    · exact ⟨pm, cm⟩
    · exact ⟨pm.reset, cm.reset⟩

theorem detach_inv (p : Placed b h d w a n) (c : Settled h d w a n) :
    Placed b h.detach d w a n ∧ Settled h.detach d w a n :=
  ⟨{ p with loaded := nofun }, { c with }⟩

/-! ### One opcode -/

/-- The committed contents `y` at `j` come after `x` at `i`. -/
structure Later (x : Stored) (i : Int) (y : Stored) (j : Int) : Prop where
  le : i ≤ j
  rows : x.rows <+: y.rows
  changed : y.rows ≠ x.rows ↔ i < j

theorem Later.refl (x : Stored) (i : Int) : Later x i x i :=
  ⟨Int.le_refl i, List.prefix_refl _, fun h => absurd rfl h, fun h => absurd h (Int.lt_irrefl i)⟩

theorem Later.trans {x y z : Stored} {i j k : Int} (h : Later x i y j) (h' : Later y j z k) :
    Later x i z k := by
  have hle := h.le
  have hle' := h'.le
  refine ⟨Int.le_trans hle hle', h.rows.trans h'.rows, ?_, ?_⟩
  · intro hne
    by_cases hy : y.rows = x.rows
    · have := h'.changed.1 (hy ▸ hne)
      omega
    · have := h.changed.1 hy
      omega
  · intro hlt heq
    have hzy : z.rows = y.rows := by
      apply (h'.rows.eq_of_length_le _).symm
      rw [heq]
      exact h.rows.length_le
    have hyx : y.rows = x.rows := hzy.symm.trans heq
    have h1 : ¬ i < j := fun hij => h.changed.2 hij hyx
    have h2 : ¬ j < k := fun hjk => h'.changed.2 hjk hzy
    omega

/-- The opcodes that neither write nor end a transaction. -/
def Op.Quiet (o : Op) : Prop := o.isMaster = false ∧ o.isSet = false ∧ o.ends = false

theorem Placed.txn_none (p : Placed b h d w a n) (hi : h.inTrans ≠ true) : h.txn = none := by
  cases ht : h.txn with
  | none => rfl
  | some t => exact absurd (p.inTrans (by rw [ht]; rfl)) hi

theorem execOp_still {o : Op} (p : Placed b h d w a n) (ho : o.Quiet) : Still h (execOp h o) := by
  have hsame : Still h h := (Same.refl h).still p
  cases o with
  | transaction =>
    change Still h (if h.inTrans = true then h else h.beginTxn)
    split
    · exact hsame
    · rename_i hi
      exact { hsame with
        view := (Placed.view_none (p.txn_none hi)).symm
        txn := fun _ => rfl
        inTrans := fun _ => rfl }
  | checkpoint => exact hsame
  | verifySchemaSignature p1 p2 => exact hsame
  | other => exact hsame
  | commit => cases ho.2.2
  | rollback => cases ho.2.2
  | master w => cases ho.1
  | setSchemaSignature sig => cases ho.2.1

/-- `OP_Commit`, unless the schema is to be read again. -/
theorem commit_inv (p : Placed b h d w a n) (c : Settled h d w a n)
    (hp : h.schemaLoaded = true ∨ h.nextSig = h.schemaSig ∨ h.nextSig = h.view.sig) :
    Placed b (execOp h .commit) w w n n ∧ Settled (execOp h .commit) w w n n ∧
      Later h.disk d (execOp h .commit).disk w := by
  have horder := p.order
  have hlow := p.low
  have hstored : n ≠ a → d < w ∧ w = n := by
    intro hne
    rcases c.stored hne with hl | hlt
    · rcases hp with hp | hp | hp
      · rw [hl] at hp
        cases hp
      · exact absurd (p.next_eq.1 hp) hne
      · rw [p.nextSig, p.view] at hp
        have hnw := (p.int32_eq (by omega) (by omega)).1 hp
        omega
    · exact hlt
  change Placed b (if h.inTrans = true then h.commitTxn else h).commitInternalChanges w w n n ∧
    Settled (if h.inTrans = true then h.commitTxn else h).commitInternalChanges w w n n ∧
    Later h.disk d (if h.inTrans = true then h.commitTxn else h).commitInternalChanges.disk w
  split
  · -- the transaction is committed
    have hsig : h.nextSig = if h.view.rows = h.disk.rows then h.readSig else h.view.sig := by
      split
      · rename_i hrows
        have hnot : ¬ d < w := fun hlt => c.changed.2 hlt hrows
        have hna : n = a := by
          by_contra hne
          exact hnot (hstored hne).1
        rw [← p.known]
        exact p.next_eq.2 hna
      · rename_i hrows
        have hlt := c.changed.1 hrows
        have hwn : w = n := by
          by_cases hna : n = a
          · rw [hna]
            exact (c.reread hna hlt).symm
          · exact (hstored hna).2
        rw [p.nextSig, p.view, hwn]
    refine ⟨?_, ?_, horder.1, p.rows, c.changed⟩
    · exact
        { p with
          disk := p.view
          view := p.view
          schemaSig := p.nextSig
          known := hsig
          low := ⟨by omega, horder.2.1⟩
          order := ⟨Int.le_refl w, horder.2.1, Int.le_refl n⟩
          closed := fun _ => rfl
          inTrans := nofun
          intern := fun h => absurd rfl h
          rows := List.prefix_refl _ }
    · exact
        { changed := ⟨fun h => absurd rfl h, fun h => absurd h (Int.lt_irrefl w)⟩
          reread := fun _ h => absurd h (Int.lt_irrefl w)
          stored := fun h => absurd rfl h }
  · -- there is none
    rename_i hi
    have hwd : w = d := p.closed (p.txn_none hi)
    have hna : n = a := by
      by_contra hne
      have := (hstored hne).1
      omega
    subst hwd hna
    obtain ⟨p', c'⟩ := commitInternalChanges_inv p c
    exact ⟨p', c', .refl _ _⟩

/-- `OP_Rollback`. -/
theorem rollback_inv (p : Placed b h d w a n) (c : Settled h d w a n) :
    Placed b (execOp h .rollback) d d a n ∧ Settled (execOp h .rollback) d d a n ∧
      (execOp h .rollback).disk = h.disk := by
  have horder := p.order
  change Placed b (if h.inTrans = true then h.abortTxn.rollbackInternalChanges else h) d d a n ∧
    Settled (if h.inTrans = true then h.abortTxn.rollbackInternalChanges else h) d d a n ∧
    (if h.inTrans = true then h.abortTxn.rollbackInternalChanges else h).disk = h.disk
  split
  · have pabort : Placed b h.abortTxn d d a n :=
      { p with
        view := p.disk
        order := ⟨Int.le_refl d, by omega, horder.2.2⟩
        closed := fun _ => rfl
        inTrans := nofun
        rows := List.prefix_refl _ }
    have cabort : Consistent h.abortTxn d d a n :=
      ⟨⟨fun h => absurd rfl h, fun h => absurd h (Int.lt_irrefl d)⟩, fun _ h =>
        absurd h (Int.lt_irrefl d)⟩
    obtain ⟨p', c'⟩ := rollbackInternalChanges_inv pabort cabort
    refine ⟨p', c', ?_⟩
    unfold Handle.rollbackInternalChanges
    split <;> rfl
  · rename_i hi
    have hwd : w = d := p.closed (p.txn_none hi)
    subst hwd
    exact ⟨p, c, rfl⟩

theorem write_some (ht : h.txn.isSome = true) (f : Stored → Stored) :
    h.write f = { h with txn := some (f h.view) } := by
  obtain ⟨t, ht⟩ := Option.isSome_iff_exists.1 ht
  unfold Handle.write Handle.view
  rw [ht]
  rfl

/-- A row of the schema table, in a transaction. -/
theorem master_placed (p : Placed b h d w a n) (ht : h.txn.isSome = true) (m : MasterWrite) :
    Placed b (execOp h (.master m)) d w a n ∧ (execOp h (.master m)).disk = h.disk ∧
      (execOp h (.master m)).txn.isSome = true ∧
      (execOp h (.master m)).view.rows ≠ (execOp h (.master m)).disk.rows := by
  change Placed b (h.write _) d w a n ∧ (h.write _).disk = h.disk ∧ (h.write _).txn.isSome = true ∧
    (h.write _).view.rows ≠ (h.write _).disk.rows
  rw [write_some ht]
  refine ⟨{ p with closed := nofun, inTrans := fun _ => p.inTrans ht, rows := ?_ }, rfl, rfl, ?_⟩
  · exact p.rows.trans (List.prefix_append _ _)
  · intro heq
    have hle := p.rows.length_le
    have hlen := congrArg List.length heq
    change (h.view.rows ++ [m]).length = h.disk.rows.length at hlen
    rw [List.length_append, List.length_singleton] at hlen
    omega

/-! ### A program -/

/-- What is to come of a program that stores no signature: it writes the schema table only in a
transaction that has one. -/
structure Calm (d w : Int) (rest : List Op) : Prop where
  set : ∀ o ∈ rest, o.isSet = false
  master : (∃ o ∈ rest, o.isMaster = true) → d < w
  ordered : Ordered rest

/-- A schema statement before it has stored its signature. -/
structure Window (h : Handle) (d w a n : Int) (done rest : List Op) : Prop where
  ahead : a < n ∧ w < n
  stores : ∃ pre post, Stores h.nextSig rest pre post ∧ ∃ o ∈ done ++ pre, o.isMaster = true
  written : (∃ o ∈ done, o.isMaster = true) → h.txn.isSome = true ∧ h.view.rows ≠ h.disk.rows
  unwritten : (∀ o ∈ done, o.isMaster = false) → (h.view.rows ≠ h.disk.rows ↔ d < w)

theorem Calm.tail {o : Op} {rest : List Op} (c : Calm d w (o :: rest)) : Calm d w rest :=
  ⟨fun o' ho' => c.set o' (List.mem_cons_of_mem _ ho'),
    fun ⟨o', ho', hm⟩ => c.master ⟨o', List.mem_cons_of_mem _ ho', hm⟩, c.ordered.tail⟩

theorem Calm.of_plain {rest : List Op} (h : ∀ o ∈ rest, o.isSet = false ∧ o.isMaster = false) :
    Calm d w rest := by
  refine ⟨fun o ho => (h o ho).1, fun ⟨o, ho, hm⟩ => ?_, ordered_of_plain fun o ho => (h o ho).2⟩
  rw [(h o ho).2] at hm
  cases hm

/-- After the end of the transaction. -/
theorem Calm.ends {o : Op} {rest : List Op} (c : Calm d w (o :: rest)) (ho : o.ends = true) {i j : Int} :
    Calm i j rest := by
  refine ⟨c.tail.set, fun ⟨o', ho', hm⟩ => ?_, c.tail.ordered⟩
  rw [c.ordered.of_ends ho o' ho'] at hm
  cases hm

theorem Stores.cases {sig : Int} {o : Op} {rest pre post : List Op}
    (s : Stores sig (o :: rest) pre post) :
    (pre = [] ∧ o = .setSchemaSignature sig ∧ rest = post) ∨
      ∃ pre', pre = o :: pre' ∧ o.isSet = false ∧ o.ends = false ∧ Stores sig rest pre' post := by
  cases pre with
  | nil =>
    have h := s.ops
    rw [List.nil_append, List.cons.injEq] at h
    exact .inl ⟨rfl, h.1, h.2⟩
  | cons o' pre =>
    have h := s.ops
    rw [List.cons_append, List.cons.injEq] at h
    obtain ⟨rfl, h⟩ := h
    have ho := s.early o (List.mem_cons_self ..)
    exact .inr ⟨pre, rfl, ho.1, ho.2, h, fun o' ho' => s.early o' (List.mem_cons_of_mem _ ho'), s.late⟩

/-- A quiet opcode of a program that has not yet stored its signature. -/
theorem Window.quiet {o : Op} {done rest : List Op} (wi : Window h d w a n done (o :: rest))
    (ho : o.Quiet)
    (s : Still h h') : Window h' d w a n (done ++ [o]) rest := by
  obtain ⟨pre, post, hs, hm⟩ := wi.stores
  have hdone : ∀ {P : Prop}, (∃ o' ∈ done ++ [o], o'.isMaster = true) →
      ((∃ o' ∈ done, o'.isMaster = true) → P) → P := by
    rintro P ⟨o', ho', hm'⟩ hP
    rcases List.mem_append.1 ho' with ho' | ho'
    · exact hP ⟨o', ho', hm'⟩
    · rw [List.mem_singleton.1 ho', ho.1] at hm'
      cases hm'
  refine ⟨wi.ahead, ?_, fun h' => hdone h' fun h'' => ?_, fun hno => ?_⟩
  · rcases hs.cases with ⟨-, rfl, -⟩ | ⟨pre', rfl, -, -, hs'⟩
    · cases ho.2.1
    · rw [s.nextSig]
      refine ⟨pre', post, hs', ?_⟩
      rw [List.append_assoc]
      exact hm
  · rw [s.view, s.disk]
    exact ⟨s.txn (wi.written h'').1, (wi.written h'').2⟩
  · rw [s.view, s.disk]
    exact wi.unwritten fun o' ho' => hno o' (List.mem_append_left _ ho')

theorem not_master_of_any {ops : List Op} (h : ¬ ∃ o ∈ ops, o.isMaster = true) :
    ∀ o ∈ ops, o.isMaster = false := by
  intro o ho
  cases hm : o.isMaster with
  | false => rfl
  | true => exact absurd ⟨o, ho, hm⟩ h

theorem Consistent.master (ch : d < w) (c : Consistent h d w a n) {m : MasterWrite}
    (hne : (execOp h (.master m)).view.rows ≠ (execOp h (.master m)).disk.rows) :
    Consistent (execOp h (.master m)) d w a n :=
  ⟨⟨fun _ => ch, fun _ => hne⟩, c.reread⟩

theorem write_schemaLoaded (h : Handle) (f : Stored → Stored) : (h.write f).schemaLoaded =
    h.schemaLoaded := by
  unfold Handle.write
  split <;> rfl

theorem write_nextSig (h : Handle) (f : Stored → Stored) : (h.write f).nextSig = h.nextSig := by
  unfold Handle.write
  split <;> rfl

/-- An opcode of a program that stores no signature. -/
theorem calm_op {o : Op} {rest : List Op} (p : Placed b h d w a n) (c : Settled h d w a n)
    (calm : Calm d w (o :: rest)) (hw : (o.isMaster || o.isSet) = true → h.txn.isSome = true)
    (hc : o = .commit → h.schemaLoaded = true ∨ h.nextSig = h.schemaSig ∨ h.nextSig = h.view.sig) :
    ∃ d' w' a' n', Placed b (execOp h o) d' w' a' n' ∧ Settled (execOp h o) d' w' a' n' ∧
      Calm d' w' rest ∧
      Later h.disk d (execOp h o).disk d' := by
  have hquiet : o.Quiet → ∃ d' w' a' n', Placed b (execOp h o) d' w' a' n' ∧
    Settled (execOp h o) d' w' a' n' ∧
      Calm d' w' rest ∧ Later h.disk d (execOp h o).disk d' := by
    intro ho
    have s := execOp_still p ho
    exact ⟨d, w, a, n, p.still s, c.still s, calm.tail, s.disk ▸ .refl _ _⟩
  cases o with
  | commit =>
    obtain ⟨p', c', hlater⟩ := commit_inv p c (hc rfl)
    exact ⟨w, w, n, n, p', c', calm.ends rfl, hlater⟩
  | rollback =>
    obtain ⟨p', c', hdisk⟩ := rollback_inv p c
    exact ⟨d, d, a, n, p', c', calm.ends rfl, hdisk ▸ .refl _ _⟩
  | master m =>
    have hlt : d < w := calm.master ⟨_, List.mem_cons_self .., rfl⟩
    obtain ⟨p', hdisk, -, hne⟩ := master_placed p (hw rfl) m
    refine ⟨d, w, a, n, p', ⟨c.toConsistent.master hlt hne, fun hna => ?_⟩, calm.tail, hdisk ▸ .refl _ _⟩
    exact (c.stored hna).imp_left fun hl => (write_schemaLoaded h _).trans hl
  | setSchemaSignature sig => cases calm.set _ (List.mem_cons_self ..)
  | transaction => exact hquiet ⟨rfl, rfl, rfl⟩
  | checkpoint => exact hquiet ⟨rfl, rfl, rfl⟩
  | verifySchemaSignature p1 p2 => exact hquiet ⟨rfl, rfl, rfl⟩
  | other => exact hquiet ⟨rfl, rfl, rfl⟩

/-- An opcode of a schema statement before it has stored its signature, and the one that does. -/
theorem window_op {o : Op} {done rest : List Op} (p : Placed b h d w a n)
    (wi : Window h d w a n done (o :: rest)) (hw : (o.isMaster || o.isSet) = true → h.txn.isSome = true) :
    ∃ w', Placed b (execOp h o) d w' a n ∧ (execOp h o).disk = h.disk ∧
      ((Settled (execOp h o) d w' a n ∧ Calm d w' rest) ∨ Window (execOp h o) d w' a n
        (done ++ [o]) rest) := by
  obtain ⟨pre, post, hs, hm⟩ := wi.stores
  have hahead := wi.ahead
  have horder := p.order
  rcases hs.cases with ⟨rfl, rfl, rfl⟩ | ⟨pre', rfl, hset, hends, hs'⟩
  · -- the signature is stored
    rw [List.append_nil] at hm
    obtain ⟨ht, hne⟩ := wi.written hm
    have hwrite : execOp h (.setSchemaSignature h.nextSig) =
        { h with txn := some { h.view with sig := h.nextSig } } := write_some ht _
    rw [hwrite]
    refine ⟨n, ?_, rfl, .inl
      ⟨⟨⟨⟨fun _ => by omega, fun _ => hne⟩, fun hna => ?_⟩, fun _ => .inr ⟨by omega, rfl⟩⟩, ?_⟩⟩
    · exact
        { p with
          view := p.nextSig
          order := ⟨by omega, Int.le_refl n, by omega⟩
          closed := nofun
          inTrans := fun _ => p.inTrans ht }
    · omega
    · exact .of_plain hs.late
  · cases hmo : o.isMaster with
    | false =>
      have s := execOp_still p ⟨hmo, hset, hends⟩
      exact ⟨w, p.still s, s.disk, .inr (wi.quiet ⟨hmo, hset, hends⟩ s)⟩
    | true =>
      cases o with
      | master m =>
        obtain ⟨p', hdisk, ht', hne⟩ := master_placed p (hw rfl) m
        refine ⟨w, p', hdisk, .inr ⟨hahead, ?_, fun _ => ⟨ht', hne⟩, fun hno => ?_⟩⟩
        · have hnext : (execOp h (.master m)).nextSig = h.nextSig := write_nextSig h _
          rw [hnext]
          exact ⟨pre', post, hs', .master m, by simp, rfl⟩
        · cases hno (.master m) (by simp)
      | transaction | checkpoint | commit | rollback | verifySchemaSignature | setSchemaSignature |
          other => cases hmo

theorem rollbackInternalChanges_disk (h : Handle) : h.rollbackInternalChanges.disk = h.disk := by
  unfold Handle.rollbackInternalChanges
  split <;> rfl

theorem vdbeReset_disk (h : Handle) (undo : Bool) (oe : Oe) : (h.vdbeReset undo oe).disk = h.disk := by
  unfold Handle.vdbeReset
  dsimp only
  rw [rollbackInternalChanges_disk]
  split <;> rfl

/-- An opcode that fails. -/
theorem failOp_inv {o : Op} {f : Failure} (p : Placed b h d w a n) (c : Consistent h d w a n)
    (hw : (o.isMaster && f.wrote) = true → h.txn.isSome = true ∧ d < w) (heq : failOp h f o = some h') :
    Placed b h' d w a n ∧ Consistent h' d w a n ∧ h'.disk = h.disk := by
  have hsame : some h = some h' → Placed b h' d w a n ∧ Consistent h' d w a n ∧ h'.disk = h.disk := by
    intro heq
    cases heq
    exact ⟨p, c, rfl⟩
  unfold failOp at heq
  cases o with
  | transaction =>
    dsimp only at heq
    split at heq
    · cases heq
    · cases heq
      exact ⟨{ p with inTrans := fun _ => rfl }, { c with }, rfl⟩
  | commit =>
    dsimp only at heq
    split at heq
    · exact hsame heq
    · split at heq
      · cases heq
      · rename_i hi
        cases heq
        have hn := p.txn_none hi
        have habort : h.abortTxn = h := by
          unfold Handle.abortTxn
          rw [← hn]
        rw [habort]
        obtain ⟨p', c'⟩ := rollbackInternalChanges_inv p c
        exact ⟨p', c'.toConsistent, rollbackInternalChanges_disk h⟩
  | rollback => cases heq
  | master m =>
    cases hf : f.wrote with
    | false =>
      simp only [hf] at heq
      exact hsame heq
    | true =>
      simp only [hf, if_true] at heq
      cases heq
      obtain ⟨ht, hlt⟩ := hw (by rw [hf]; rfl)
      obtain ⟨p', hdisk, -, hne⟩ := master_placed p ht m
      exact ⟨p', c.master hlt hne, hdisk⟩
  | checkpoint => exact hsame heq
  | verifySchemaSignature p1 p2 => exact hsame heq
  | setSchemaSignature sig => exact hsame heq
  | other => exact hsame heq

/-- The invariant of the machine. -/
structure InvAt (b : Int) (s : State) (d w a n : Int) : Prop where
  placed : Placed b s.h d w a n
  idle : s.vm = none → Settled s.h d w a n
  running : ∀ vm, s.vm = some vm →
    (Settled s.h d w a n ∧ Calm d w vm.rest) ∨ Window s.h d w a n vm.done vm.rest
  prepared : ∀ prog ∈ s.prepared, (∀ o ∈ prog, o.isSet = false) ∧ Ordered prog

end

/-- What a step keeps. -/
def Kept (b : Int) (s : State) (d : Int) (s' : State) : Prop :=
  ∃ d' w' a' n', InvAt b s' d' w' a' n' ∧ Later s.h.disk d s'.h.disk d'

theorem kept_idle {b d w a n : Int} {s s' : State} (hs : InvAt b s d w a n) (a' n' : Int)
    (p : Placed b s'.h d w a' n') (c : Settled s'.h d w a' n') (hd : s'.h.disk = s.h.disk)
      (hv : s'.vm = none)
    (hp : s'.prepared = s.prepared) : Kept b s d s' := by
  refine ⟨d, w, a', n', ⟨p, fun _ => c, fun vm hvm => ?_, hp ▸ hs.prepared⟩, hd ▸ .refl _ _⟩
  rw [hv] at hvm
  cases hvm

/-- One opcode that succeeds. -/
theorem op_inv {b d w a n : Int} {s s' : State} (hs : InvAt b s d w a n) (hp : Proper s .op)
    (h : s.execOp = some s') : Kept b s d s' := by
  unfold State.execOp at h
  split at h
  swap
  · cases h
  rename_i done o rest undo exec hvm
  split at h
  · cases h
  cases h
  unfold Proper at hp
  rw [hvm] at hp
  obtain ⟨hwrite, hcommit⟩ : OpProper s.h o := hp
  rcases hs.running _ hvm with ⟨c, calm⟩ | wi
  · obtain ⟨d', w', a', n', p', c', calm', hlater⟩ := calm_op hs.placed c calm hwrite hcommit
    refine ⟨d', w', a', n', ⟨p', nofun, fun vm hvm' => .inl ⟨c', ?_⟩, hs.prepared⟩, hlater⟩
    cases hvm'
    exact calm'
  · obtain ⟨w', p', hdisk, hrun⟩ := window_op hs.placed wi hwrite
    refine ⟨d, w', a, n, ⟨p', nofun, fun vm hvm' => ?_, hs.prepared⟩, ?_⟩
    · cases hvm'
      exact hrun
    · change Later s.h.disk d (Signature.execOp s.h o).disk d
      rw [hdisk]
      exact .refl _ _

/-- One opcode that fails. -/
theorem fail_inv {b d w a n : Int} {s s' : State} {f : Failure} (hs : InvAt b s d w a n)
    (hp : Proper s (.fail f)) (h : s.failOp f = some s') : Kept b s d s' := by
  unfold State.failOp at h
  split at h
  swap
  · cases h
  rename_i done o rest undo exec hvm
  unfold Proper at hp
  rw [hvm] at hp
  obtain ⟨hwrite, hwindow⟩ : FailProper s.h f done o rest := hp
  obtain ⟨h', hfail, rfl⟩ := Option.map_eq_some_iff.1 h
  have hkept : Placed b h' d w a n ∧ Consistent h' d w a n ∧ h'.disk = s.h.disk := by
    rcases hs.running _ hvm with ⟨c, calm⟩ | wi
    · refine failOp_inv hs.placed c.toConsistent (fun hm => ⟨hwrite hm, ?_⟩) hfail
      exact calm.master ⟨o, List.mem_cons_self .., (Bool.and_eq_true_iff.1 hm).1⟩
    · -- the table has not been written
      obtain ⟨pre, post, hstores, -⟩ := wi.stores
      have hops : o :: rest = pre ++ .setSchemaSignature s.h.nextSig :: post := hstores.ops
      have hset : (o :: rest).any Op.isSet = true := by
        rw [hops]
        simp [Op.isSet]
      have hno : ¬ ((done.any Op.isMaster || (o.isMaster && f.wrote)) = true) := by
        intro hm
        have hfalse := hwindow hm
        rw [hset] at hfalse
        cases hfalse
      rw [Bool.or_eq_true, not_or] at hno
      have hdone : ∀ o' ∈ done, o'.isMaster = false :=
        not_master_of_any fun ⟨o', ho', hm⟩ => hno.1 (List.any_eq_true.2 ⟨o', ho', hm⟩)
      have c : Consistent s.h d w a n :=
        ⟨wi.unwritten hdone, fun hna => absurd hna (by have := wi.ahead; omega)⟩
      exact failOp_inv hs.placed c (fun hm => absurd hm hno.2) hfail
  obtain ⟨p', c', hdisk⟩ := hkept
  obtain ⟨p'', c''⟩ := vdbeReset_inv (undo || s.h.begins o) f.onError p' c'
  have hdisk' := (vdbeReset_disk h' (undo || s.h.begins o) f.onError).trans hdisk
  refine kept_idle hs a n ?_ ?_ ?_ rfl rfl
  · dsimp only
    split
    · exact p''.reset
    · exact p''
  · dsimp only
    split
    · exact c''.reset
    · exact c''
  · dsimp only
    split
    · exact hdisk'
    · exact hdisk'

/-- A statement that fails while it is compiled, after it has drawn a signature. -/
theorem Ddl.take {es pre post : List Event} (hd : Ddl es pre post) {k : Nat}
    (hk : .changeSchemaSignature ∈ es.take k) : ∃ post', Ddl (es.take k) pre post' := by
  have hlt : pre.length < k := by
    by_contra hle
    rw [hd.events, List.take_append_of_le_length (by omega)] at hk
    exact absurd rfl (hd.early _ (List.mem_of_mem_take hk)).ne
  obtain ⟨j, hj⟩ : ∃ j, k - pre.length = j + 1 := ⟨k - pre.length - 1, by omega⟩
  refine ⟨post.take j, ?_, hd.early, hd.writes, fun e he => hd.plain e (List.mem_of_mem_take he),
    fun e he => hd.tame e (List.mem_of_mem_take he)⟩
  rw [hd.events, List.take_append, List.take_of_length_le (by omega), hj, List.take_succ_cons]

section
variable {b d w a n : Int} {h : Handle}

/-- The draw of a signature. -/
theorem compile_advance {es pre post : List Event} (explain : Bool) (x : Fin 256) (hd : Ddl es pre post)
    (p : Placed b h d w a n) (c : Consistent h d w a n) (heq : h.nextSig = h.schemaSig)
    (hfew : h.draws + 1 < 2 ^ 24) :
    ∃ m, Placed b (compile h explain x es).h d w a m ∧
      Window (compile h explain x es).h d w a m [] (compile h explain x es).ops ∧
      (compile h explain x es).h.disk = h.disk := by
  have hna := p.next_eq.1 heq
  have horder := p.order
  have hlow := p.low
  have hhigh := p.high
  have hx := x.isLt
  obtain ⟨hsame, r, r', hstores, hm⟩ := compile_ddl explain x hd heq
  have hsig : int32 (h.schemaSig + x + 1) = int32 (a + x + 1) := by
    rw [p.schemaSig, Int.add_assoc, int32_add, Int.add_assoc]
  rw [hsig] at hsame hstores
  have pdraw : Placed b (h.draw (int32 (a + x + 1))) d w a (a + x + 1) :=
    { p with
      nextSig := rfl
      order := ⟨by omega, by omega, by omega⟩
      high := by
        change a + x + 1 ≤ b + 256 * ((h.draws + 1 : Nat) : Int)
        omega
      few := hfew
      intern := fun _ => .inl rfl }
  have s := hsame.still pdraw
  refine ⟨a + x + 1, pdraw.still s, ⟨by omega, ⟨r, r', ?_, hm⟩, nofun, fun _ => ?_⟩, hsame.disk⟩
  · rw [hsame.nextSig]
    exact hstores
  · rw [s.view, s.disk]
    exact c.changed

theorem Placed.forget (p : Placed b h d w a n) (hwa : w ≤ a) :
    Placed b { h with nextSig := h.schemaSig } d w a a := by
  have horder := p.order
  have hhigh := p.high
  exact
    { p with
      nextSig := p.schemaSig
      order := ⟨horder.1, hwa, Int.le_refl a⟩
      high := Int.le_trans horder.2.2 hhigh
      intern := fun h => absurd rfl h }

end

section
variable {b d w a n : Int} {s : State} {stmt : Stmt} {x : Fin 256}

/-- A statement whose program runs. -/
theorem run_inv (exec : Bool) (hs : InvAt b s d w a n) (c : Settled s.h d w a n)
    (hl : s.h.schemaLoaded = true)
    (hfew : Advances s.h stmt.events → s.h.draws + 1 < 2 ^ 24) :
    Kept b s d (s.compiled x stmt.events (.run exec)) := by
  have p := hs.placed
  unfold State.compiled
  dsimp only
  rcases stmt.shape with hplain | ⟨pre, post, hd⟩
  · obtain ⟨hsame, hops⟩ := compile_plain (h := s.h) false x hplain
    have st := hsame.still p
    refine ⟨d, w, a, n, ⟨p.still st, fun _ => c.still st, fun vm hvm =>
      .inl ⟨c.still st, ?_⟩, hs.prepared⟩,
      hsame.disk ▸ .refl _ _⟩
    dsimp only at hvm
    split at hvm
    · cases hvm
      exact .of_plain hops
    · cases hvm
  · rw [if_pos (compile_nErr false x hd.all_tame)]
    by_cases heq : s.h.nextSig = s.h.schemaSig
    · -- the first schema statement of its transaction
      have hadv : Advances s.h stmt.events := ⟨heq, hd.events ▸ by simp⟩
      obtain ⟨m, p', wi, hdisk⟩ := compile_advance false x hd p c.toConsistent heq (hfew hadv)
      refine ⟨d, w, a, m, ⟨p', nofun, fun vm hvm => .inr ?_, hs.prepared⟩, hdisk ▸ .refl _ _⟩
      cases hvm
      exact wi
    · -- a further one: the transaction has stored a signature
      obtain ⟨hsame, hset, hord⟩ := compile_ddl_again false x hd heq
      have st := hsame.still p
      refine ⟨d, w, a, n, ⟨p.still st, nofun, fun vm hvm => .inl ⟨c.still st, ?_⟩, hs.prepared⟩,
        hsame.disk ▸ .refl _ _⟩
      cases hvm
      refine ⟨hset, fun _ => ?_, hord⟩
      rcases c.stored (fun hna => heq (p.next_eq.2 hna)) with hno | hlt
      · rw [hl] at hno
        cases hno
      · exact hlt.1

/-- An EXPLAIN that is listed. -/
theorem list_inv (aborted : Bool) (hs : InvAt b s d w a n) (hv : s.vm = none) (c : Settled s.h d w a n)
    (hfew : Advances s.h stmt.events → s.h.draws + 1 < 2 ^ 24) (heq : s.h.nextSig = s.h.schemaSig) :
    Kept b s d (s.compiled x stmt.events (.list aborted)) := by
  have p := hs.placed
  have hna := p.next_eq.1 heq
  have hwa : w ≤ a := hna ▸ p.order.2.1
  -- the signature that has been drawn is forgotten
  have hforget : ∀ {h : Handle} {m : Int}, Placed b h d w a m → (h.view.rows ≠ h.disk.rows ↔ d < w) →
      h.disk = s.h.disk → h = (compile s.h true x stmt.events).h →
        (compile s.h true x stmt.events).nErr = 0 →
      Kept b s d (s.compiled x stmt.events (.list aborted)) := by
    intro h m p' hch hdisk hh hn
    have pf := p'.forget hwa
    have cf : Settled { h with nextSig := h.schemaSig } d w a a :=
      { changed := hch, reread := fun _ => c.reread hna, stored := fun h => absurd rfl h }
    unfold State.compiled
    simp only [hn, ne_eq, not_true_eq_false, if_false, ← hh]
    cases aborted with
    | false => exact kept_idle hs a a pf cf hdisk hv rfl
    | true =>
      obtain ⟨pr, cr⟩ := vdbeReset_inv false .abort pf cf.toConsistent
      exact kept_idle hs a a pr cr ((vdbeReset_disk _ _ _).trans hdisk) hv rfl
  rcases stmt.shape with hplain | ⟨pre, post, hd⟩
  · obtain ⟨hsame, -⟩ := compile_plain (h := s.h) true x hplain
    have st := hsame.still p
    by_cases hn : (compile s.h true x stmt.events).nErr = 0
    · exact hforget (p.still st) (c.still st).changed hsame.disk rfl hn
    · unfold State.compiled
      simp only [hn, ne_eq, not_false_eq_true, if_true]
      exact kept_idle hs a n (p.still st) (c.still st) hsame.disk hv rfl
  · have hadv : Advances s.h stmt.events := ⟨heq, hd.events ▸ by simp⟩
    obtain ⟨m, p', wi, hdisk⟩ := compile_advance true x hd p c.toConsistent heq (hfew hadv)
    exact hforget p' (wi.unwritten nofun) hdisk rfl (compile_nErr true x hd.all_tame)

/-- A statement that is only prepared. -/
theorem keep_inv (explain : Bool) (hs : InvAt b s d w a n) (hv : s.vm = none) (c : Settled s.h d w a n)
    (hno : ¬ Advances s.h stmt.events) : Kept b s d (s.compiled x stmt.events (.keep explain)) := by
  have p := hs.placed
  have hprog : Same s.h (compile s.h explain x stmt.events).h ∧
      (∀ o ∈ (compile s.h explain x stmt.events).ops, o.isSet = false) ∧
      Ordered (compile s.h explain x stmt.events).ops := by
    rcases stmt.shape with hplain | ⟨pre, post, hd⟩
    · obtain ⟨hsame, hops⟩ := compile_plain (h := s.h) explain x hplain
      exact ⟨hsame, fun o ho => (hops o ho).1, ordered_of_plain fun o ho => (hops o ho).2⟩
    · exact compile_ddl_again explain x hd fun heq => hno ⟨heq, hd.events ▸ by simp⟩
  have st := hprog.1.still p
  refine ⟨d, w, a, n, ⟨p.still st, fun _ => c.still st, fun vm hvm => ?_, fun prog hprog' => ?_⟩,
    hprog.1.disk ▸ .refl _ _⟩
  · change s.vm = some vm at hvm
    rw [hv] at hvm
    cases hvm
  · unfold State.compiled at hprog'
    dsimp only at hprog'
    split at hprog'
    · rcases List.mem_cons.1 hprog' with rfl | hmem
      · exact hprog.2
      · exact hs.prepared prog hmem
    · exact hs.prepared prog hprog'

/-- A statement that fails while it is compiled. -/
theorem failed_inv (explain : Bool) (k : Nat) (noMem : Bool) (hs : InvAt b s d w a n) (hv : s.vm = none)
    (c : Settled s.h d w a n) (hfew : Advances s.h stmt.events → s.h.draws + 1 < 2 ^ 24)
    (hmem : Advances s.h (stmt.events.take k) → noMem = true) :
    Kept b s d (s.compiled x stmt.events (.failed explain k noMem)) := by
  have p := hs.placed
  have hforget : ∀ {h : Handle} {m : Int}, Placed b h d w a m → Consistent h d w a m →
      Placed b { h.resetInternalSchema 0 with flagInTrans := false } d w a m ∧
      Settled { h.resetInternalSchema 0 with flagInTrans := false } d w a m :=
    fun p' c' => ⟨{ p'.reset with }, { c'.reset with }⟩
  by_cases hadv : Advances s.h (stmt.events.take k)
  · -- the schema is read again, and with it the signature
    rcases stmt.shape with hplain | ⟨pre, post, hd⟩
    · exact absurd rfl (hplain _ (List.mem_of_mem_take hadv.2)).ne
    · obtain ⟨post', hd'⟩ := hd.take hadv.2
      obtain ⟨m, p', wi, hdisk⟩ := compile_advance explain x hd' p c.toConsistent hadv.1
        (hfew ⟨hadv.1, List.mem_of_mem_take hadv.2⟩)
      obtain ⟨pf, cf⟩ := hforget p' ⟨wi.unwritten nofun, fun hma =>
        absurd hma (by have := wi.ahead; omega)⟩
      unfold State.compiled
      rw [hmem hadv]
      exact kept_idle hs a m pf cf hdisk hv rfl
  · obtain ⟨hsame, -⟩ := compile_same _ (R := fun _ => True) explain x hadv fun _ _ _ _ => trivial
    have st := hsame.still p
    unfold State.compiled
    cases noMem with
    | false => exact kept_idle hs a n (p.still st) (c.still st) hsame.disk hv rfl
    | true =>
      obtain ⟨pf, cf⟩ := hforget (p.still st) (c.still st).toConsistent
      exact kept_idle hs a n pf cf hsame.disk hv rfl

end

theorem initAttached_disk (h : Handle) (env : Handle.InitEnv) : (h.initAttached env).1.disk = h.disk := by
  unfold Handle.initAttached
  split <;> rfl

theorem initDatabases_disk (h : Handle) (env : Handle.InitEnv) : (h.initDatabases env).1.disk =
    h.disk := by
  unfold Handle.initDatabases
  split
  · exact initAttached_disk h env
  · have hfile : (h.initDbFile env).1.disk = h.disk := by
      unfold Handle.initDbFile
      dsimp only
      split <;> rfl
    dsimp only
    split
    · rw [initAttached_disk, hfile]
    · exact hfile

theorem attach_disk (h : Handle) (opens : Bool) (env : Handle.InitEnv) : (h.attach opens env).disk =
    h.disk := by
  unfold Handle.attach
  dsimp only
  split
  · rfl
  · split
    · exact initDatabases_disk { h with initialized := false } env
    · exact initDatabases_disk { h with initialized := false } env

/-- What every step keeps. -/
theorem step_inv {b d w a n : Int} {s s' : State} {l : Label} (hs : InvAt b s d w a n) (hp : Proper s l)
    (h : next s l = some s') : Kept b s d s' := by
  have p := hs.placed
  cases l with
  | init env =>
    obtain ⟨hen, h⟩ := Option.ite_none_right_eq_some.1 h
    cases h
    have hv := Option.isNone_iff_eq_none.1 hen.1
    obtain ⟨m, p', c'⟩ := initDatabases_inv env p (hs.idle hv) hp
    exact kept_idle hs m m p' c' (initDatabases_disk _ _) hv rfl
  | compile stmt x ending =>
    obtain ⟨hen, h⟩ := Option.ite_none_right_eq_some.1 h
    cases h
    have hv := Option.isNone_iff_eq_none.1 hen.1
    have c := hs.idle hv
    have hl := p.loaded hen.2
    obtain ⟨hfew, hend⟩ := hp
    cases ending with
    | run exec => exact run_inv exec hs c hl hfew
    | list aborted => exact list_inv aborted hs hv c hfew hend
    | keep explain => exact keep_inv explain hs hv c hend
    | failed explain k noMem => exact failed_inv explain k noMem hs hv c hfew hend
  | start prog =>
    obtain ⟨hen, h⟩ := Option.ite_none_right_eq_some.1 h
    cases h
    have hv := Option.isNone_iff_eq_none.1 hen.1
    have c := hs.idle hv
    obtain ⟨hset, hord⟩ := hs.prepared prog hen.2
    refine ⟨d, w, a, n, ⟨p, nofun, fun vm hvm => .inl ⟨c, ?_⟩, hs.prepared⟩, .refl _ _⟩
    cases hvm
    refine ⟨hset, fun ⟨o, ho, hm⟩ => ?_, hord⟩
    have hne := hp (List.any_eq_true.2 ⟨o, ho, hm⟩)
    rw [p.view, p.disk] at hne
    have horder := p.order
    have hwd : w ≠ d := fun heq => hne (by rw [heq])
    omega
  | op => exact op_inv hs hp h
  | fail f => exact fail_inv hs hp h
  | finish =>
    unfold next at h
    dsimp only at h
    split at h
    · rename_i hvm
      cases h
      rcases hs.running _ hvm with ⟨c, -⟩ | wi
      · exact kept_idle hs a n p c rfl rfl rfl
      · obtain ⟨pre, post, hstores, -⟩ := wi.stores
        exact absurd hstores.ops (by simp)
    · cases h
  | leave =>
    unfold next at h
    dsimp only at h
    split at h
    · rename_i vm hvm
      obtain ⟨hen, h⟩ := Option.ite_none_right_eq_some.1 h
      cases h
      rcases hs.running _ hvm with ⟨c, -⟩ | wi
      · exact kept_idle hs a n p c rfl rfl rfl
      · obtain ⟨pre, post, hstores, -⟩ := wi.stores
        have hset := List.all_eq_true.1 hen (.setSchemaSignature s.h.nextSig) (by rw [hstores.ops]; simp)
        cases hset
    · cases h
  | attach opens env =>
    obtain ⟨hen, h⟩ := Option.ite_none_right_eq_some.1 h
    cases h
    have hv := Option.isNone_iff_eq_none.1 hen.1
    obtain ⟨a', n', p', c'⟩ := attach_inv p (hs.idle hv) hp
    exact kept_idle hs a' n' p' c' (attach_disk _ _ _) hv rfl
  | detach =>
    obtain ⟨hen, h⟩ := Option.ite_none_right_eq_some.1 h
    cases h
    have hv := Option.isNone_iff_eq_none.1 hen.1
    obtain ⟨p', c'⟩ := detach_inv p (hs.idle hv)
    exact kept_idle hs a n p' c' rfl hv rfl

/-! ## Runs -/

theorem start_inv {s : State} (hs : Start s) :
    InvAt s.h.disk.sig s s.h.disk.sig s.h.disk.sig s.h.disk.sig s.h.disk.sig := by
  have hview := Placed.view_none hs.txn
  have hdraws := hs.draws
  refine ⟨⟨hs.int.symm, ?_, ?_, ?_, ?_, ⟨Int.le_refl _, Int.le_refl _⟩,
    ⟨Int.le_refl _, Int.le_refl _, Int.le_refl _⟩,
    by omega, by omega, fun _ => rfl, ?_, fun h => absurd rfl h, hs.loaded, ?_⟩,
    fun _ => ⟨⟨⟨fun h => ?_, fun h => absurd h (Int.lt_irrefl _)⟩, fun _ _ => rfl⟩, fun h =>
    absurd rfl h⟩, fun vm hvm => ?_, fun prog hprog => ?_⟩
  · rw [hview, hs.int]
  · rw [hs.schemaSig, hs.int]
  · rw [hs.nextSig, hs.int]
  · rw [hs.schemaSig, hs.readSig]
  · rw [hs.txn]
    exact nofun
  · exact hview.symm ▸ List.prefix_refl _
  · rw [hview] at h
    exact absurd rfl h
  · rw [hs.vm] at hvm
    cases hvm
  · rw [hs.prepared] at hprog
    cases hprog

theorem run_kept {b d w a n : Int} {s s' : State} {ls : List Label} (hs : InvAt b s d w a n)
    (hr : (machine.restrict Proper).Run s ls s') : Kept b s d s' := by
  induction hr generalizing d w a n with
  | nil s => exact ⟨d, w, a, n, hs, .refl _ _⟩
  | cons hst _ ih =>
    obtain ⟨d', w', a', n', hs', hlater⟩ := step_inv hs hst.1 hst.2
    obtain ⟨d'', w'', a'', n'', hs'', hlater'⟩ := ih hs'
    exact ⟨d'', w'', a'', n'', hs'', hlater.trans hlater'⟩

/-- The stored signature is another one exactly when the schema table is. -/
theorem Later.sig_iff {b d w a n d' w' a' n' : Int} {s s' : State} (hs : InvAt b s d w a n)
    (hs' : InvAt b s' d' w' a' n') (hl : Later s.h.disk d s'.h.disk d') :
    s'.h.disk.sig ≠ s.h.disk.sig ↔ s'.h.disk.rows ≠ s.h.disk.rows := by
  have hle := hl.le
  have hlow := hs.placed.low
  have horder' := hs'.placed.order
  rw [hs'.placed.disk, hs.placed.disk, ne_eq, hs'.placed.int32_eq (by omega) (by omega), hl.changed]
  omega

/-- **Every run announces its signatures.** In every run that meets no defect the handle knows the
signature outside transactions, a step that commits a change of the schema commits another
signature, and another handle is refused exactly when the schema has changed since it read it. -/
theorem signature_run {s₀ s s' : State} {ls ls' : List Label} (hinit : machine.init s₀)
    (hr : (machine.restrict Proper).Run s₀ ls s) (hr' : (machine.restrict Proper).Run s ls' s') :
    KnowsSignature s' ∧ RefusesOthers s s' ∧
      ∀ l s'', Proper s' l → machine.step s' l s'' → CommitsSignature s' s'' := by
  obtain ⟨d, w, a, n, hs, -⟩ := run_kept (start_inv hinit) hr
  obtain ⟨d', w', a', n', hs', hlater⟩ := run_kept hs hr'
  refine ⟨fun _ => hs'.placed.known, ?_, fun l s'' hp hstep hrows => ?_⟩
  · unfold RefusesOthers verifySchemaSignature
    rw [← hlater.sig_iff hs hs']
    split
    · rename_i hne
      exact ⟨fun _ => hne, fun _ => rfl⟩
    · rename_i hne
      exact ⟨nofun, fun h => absurd h hne⟩
  · obtain ⟨d'', w'', a'', n'', hs'', hlater'⟩ := step_inv hs' hp hstep
    exact (hlater'.sig_iff hs' hs'').2 hrows

/-! ## Two runs -/

/-- A new database. -/
def fresh : State where
  h :=
    { disk := ⟨[], 0⟩, txn := none, aDb := fun _ => ⟨0, false, false, false⟩, flagInTrans := false
      onError := .default, initialized := true, internChanges := false, schemaLoaded := true
      nextSig := 0, readSig := 0, draws := 0 }
  vm := none
  prepared := []

theorem fresh_start : Start fresh := ⟨rfl, rfl, rfl, rfl, rfl, rfl, fun _ => rfl, rfl, rfl, rfl⟩

theorem run_of_foldlM {s s' : State} {ls : List Label} (h : ls.foldlM next s = some s') :
    machine.Run s ls s' := by
  induction ls generalizing s with
  | nil =>
    cases h
    exact .nil _
  | cons l ls ih =>
    rw [List.foldlM_cons] at h
    obtain ⟨s₁, hstep, h⟩ := Option.bind_eq_some_iff.1 h
    exact .cons hstep (ih h)

/-- A step that runs into no defect. -/
def properNext (s : State) (l : Label) : Option State := if Proper s l then next s l else none

theorem run_of_properNext {s s' : State} {ls : List Label} (h : ls.foldlM properNext s = some s') :
    (machine.restrict Proper).Run s ls s' := by
  induction ls generalizing s with
  | nil =>
    cases h
    exact .nil _
  | cons l ls ih =>
    rw [List.foldlM_cons] at h
    obtain ⟨s₁, hstep, h⟩ := Option.bind_eq_some_iff.1 h
    obtain ⟨hp, hstep⟩ := Option.ite_none_right_eq_some.1 hstep
    exact .cons ⟨hp, hstep⟩ (ih h)

/-- The steps of `CREATE TABLE b(x)`, its `OP_Commit` included. -/
def createB : List Label := .compile (.createTable "b" false [] 0) 4 (.run true) :: List.replicate 10 .op

/-- `CREATE TABLE a AS SELECT 1 UNION SELECT 1, 2`, whose select fails after the signature has been
drawn, and `CREATE TABLE b(x)` up to its `OP_Commit`. -/
def createAB : List Label :=
  .compile (.createTable "a" false [] 0) 4 (.failed false 6 false) ::
  .compile (.createTable "b" false [] 0) 4 (.run true) :: List.replicate 7 .op

/-- The table is created with a signature. -/
theorem signature_run_create : ∃ s, createB.foldlM properNext fresh = some s ∧
    KnowsSignature s ∧ RefusesOthers fresh s ∧
      ∀ l s', Proper s l → machine.step s l s' → CommitsSignature s s' := by
  obtain ⟨s, hs⟩ : ∃ s, createB.foldlM properNext fresh = some s :=
    Option.isSome_iff_exists.1 (by decide +kernel)
  exact ⟨s, hs, signature_run fresh_start (.nil _) (run_of_properNext hs)⟩

/-- **A signature that is not stored.** The table is committed with the signature of the empty
schema. -/
theorem signature_not_stored : ¬ ∀ (s₀ s s' : State) (ls ls' : List Label), machine.init s₀ →
    machine.Run s₀ ls s → machine.Run s ls' s' → KnowsSignature s' ∧ RefusesOthers s s' ∧
      ∀ l s'', machine.step s' l s'' → CommitsSignature s' s'' := by
  intro hall
  have hplay : ((createAB.foldlM next fresh).bind fun s => (next s .op).map fun s' =>
      decide (s'.h.disk.rows ≠ s.h.disk.rows ∧ s'.h.disk.sig = s.h.disk.sig)) =
      some true := by decide +kernel
  obtain ⟨s, hs, hplay⟩ := Option.bind_eq_some_iff.1 hplay
  obtain ⟨s', hs', hcommit⟩ := Option.map_eq_some_iff.1 hplay
  obtain ⟨hrows, hsig⟩ := of_decide_eq_true hcommit
  obtain ⟨-, -, h⟩ := hall fresh fresh s [] createAB fresh_start (.nil _) (run_of_foldlM hs)
  exact h .op s' hs' hrows hsig

end Dbsql.L5.Signature
