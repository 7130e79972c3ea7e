import TypedLowering.Proofs.Printing.Streaming

/-!
# Flushing

A writer may fail, and a printer may be flushed to it at any time. As long as each write takes its
whole text or none of it, what the writer took and what the printer still holds are together all
that was printed (`Account.Complete`): a flush that succeeds moves what is held over to the writer,
and one that fails changes nothing. A program that is written part by part ends at the first write
that fails, with all parts before it written and nothing of the others
(`JavaScript.flushing_lossless`).
-/

namespace TypedLowering

namespace Span

theorem join_append (a b : List Span) :
    join (a ++ b) = ((join a).1 ++ (join b).1, (join a).2 ++ (join b).2) := by
  induction a with
  | nil => simp [join]
  | cons span a ih => simp [join, ih, String.append_assoc, List.append_assoc]

theorem join_singleton (span : Span) : join [span] = (span.text, span.mappings) := by
  simp [join]

end Span

/-! ## What a writer took -/

/-- What a writer has taken, when each of its writes takes the whole text or fails and takes nothing
of it. -/
structure Account {σ : Type} (writer : Writer σ) where
  /-- The texts, in the order in which they were written. -/
  texts : σ → List String
  /-- The mappings, in the order in which they were handed over. -/
  mappings : σ → List Mapping
  write_ok : ∀ {text s t}, writer.write text s = (.ok (), t) →
    texts t = texts s ++ [text] ∧ mappings t = mappings s
  write_error : ∀ {text s e t}, writer.write text s = (.error e, t) →
    texts t = texts s ∧ mappings t = mappings s
  addMapping : ∀ m s, texts (writer.addMapping m s) = texts s ∧
    mappings (writer.addMapping m s) = mappings s ++ [m]

namespace Account

variable {σ : Type} {writer : Writer σ} (account : Account writer)

/-- From `s` to `t`, the writer took just the texts of these parts and their mappings. -/
structure Took (s : σ) (spans : List Span) (t : σ) : Prop where
  texts : account.texts t = account.texts s ++ spans.map (·.text)
  mappings : account.mappings t = account.mappings s ++ spans.flatMap (·.mappings)

variable {account} {s t u : σ} {spans : List Span}

namespace Took

theorem refl : account.Took s [] s := ⟨by simp, by simp⟩

theorem trans {more : List Span} (h : account.Took s spans t) (h' : account.Took t more u) :
    account.Took s (spans ++ more) u :=
  ⟨by simp [h'.texts, h.texts], by simp [h'.mappings, h.mappings]⟩

end Took

/-- A write that fails takes nothing. -/
theorem took_error {text : String} {e : EmitError} (h : writer.write text s = (.error e, t)) :
    account.Took s [] t := by
  obtain ⟨htexts, hmappings⟩ := account.write_error h
  exact ⟨by simp [htexts], by simp [hmappings]⟩

/-- Mappings are handed over one by one. -/
theorem foldl_addMapping (ms : List Mapping) (s : σ) :
    account.texts (ms.foldl (fun s m => writer.addMapping m s) s) = account.texts s ∧
      account.mappings (ms.foldl (fun s m => writer.addMapping m s) s) =
        account.mappings s ++ ms := by
  induction ms generalizing s with
  | nil => simp
  | cons m ms ih =>
    obtain ⟨htexts, hmappings⟩ := account.addMapping m s
    obtain ⟨htexts', hmappings'⟩ := ih (writer.addMapping m s)
    exact ⟨htexts'.trans htexts, by simp [hmappings', hmappings]⟩

/-- A write that succeeds takes its text, and then the mappings of it. -/
theorem took_deliver {span : Span} (h : (writer.write span.text s).1 = .ok ()) :
    account.Took s [span] (span.deliver writer s) := by
  obtain ⟨htexts, hmappings⟩ :=
    account.write_ok (t := (writer.write span.text s).2) (Prod.ext h rfl)
  obtain ⟨htexts', hmappings'⟩ :=
    account.foldl_addMapping span.mappings (writer.write span.text s).2
  exact ⟨by simp [Span.deliver, htexts', htexts], by simp [Span.deliver, hmappings', hmappings]⟩

end Account

/-- A writer that keeps what it takes, and refuses some of its writes. -/
structure Refusing where
  /-- Whether the next writes are refused. Those after them are not. -/
  refuses : List Bool
  texts : List String
  mappings : List Mapping

namespace Refusing

/-- A writer that fails when it is told to, and takes nothing then. -/
def writer : Writer Refusing where
  write text s :=
    match s.refuses with
    | true :: refuses => (.error ⟨"no space left"⟩, { s with refuses })
    | refuses => (.ok (), ⟨refuses.tail, s.texts ++ [text], s.mappings⟩)
  addMapping m s := { s with mappings := s.mappings ++ [m] }

/-- What the writer took is what it has. -/
def account : Account writer where
  texts := texts
  mappings := mappings
  write_ok {text s t} h := by
    obtain ⟨_ | ⟨_ | _, _⟩, _, _⟩ := s <;> cases h <;> exact ⟨rfl, rfl⟩
  write_error {text s e t} h := by
    obtain ⟨_ | ⟨_ | _, _⟩, _, _⟩ := s <;> cases h
    exact ⟨rfl, rfl⟩
  addMapping _ _ := ⟨rfl, rfl⟩

/-- One write succeeds, and the next one fails. -/
def second : Refusing := ⟨[false, true], [], []⟩

end Refusing

namespace Printer

variable {σ : Type} {writer : Writer σ}

theorem flush_empty {p : Printer} (h : p.isEmpty = true) (s : σ) :
    p.flush writer s = (.ok (), p, s) := by
  rw [flush, h]
  rfl

variable (writer) in
/-- A flush of something is one write, which fails and leaves the printer as it is, or succeeds. -/
theorem flush_cases {p : Printer} (h : p.isEmpty = false) (s : σ) :
    (∃ e t, writer.write p.span.text s = (.error e, t) ∧ p.flush writer s = (.error e, p, t)) ∨
      ((writer.write p.span.text s).1 = .ok () ∧
        p.flush writer s = (.ok (), p.clear, p.span.deliver writer s)) := by
  rw [flush, h]
  cases hwrite : writer.write p.out s with
  | mk result t =>
    cases result with
    | error e => exact .inl ⟨e, t, hwrite, rfl⟩
    | ok =>
      refine .inr ⟨congrArg Prod.fst hwrite, ?_⟩
      rw [Span.deliver, show p.span.text = p.out from rfl, hwrite]
      rfl

/-- A flush that fails leaves the printer as it is, and the writer takes nothing. -/
theorem flush_error {account : Account writer} {p q : Printer} {s t : σ} {e : EmitError}
    (h : p.flush writer s = (.error e, q, t)) : q = p ∧ account.Took s [] t := by
  cases hempty : p.isEmpty with
  | true =>
    rw [flush_empty hempty] at h
    simp at h
  | false =>
    obtain ⟨e', t', hwrite, hflush⟩ | ⟨-, hflush⟩ := flush_cases writer hempty s
    · rw [hflush] at h
      obtain ⟨rfl, rfl, rfl⟩ : e' = e ∧ p = q ∧ t' = t := by simpa using h
      exact ⟨rfl, account.took_error hwrite⟩
    · rw [hflush] at h
      simp at h

/-! ## A printer in use -/

/-- What is done with a printer that has a writer. -/
inductive Action where
  /-- Pieces are printed: imports, or statements that are kept apart in the one way or the other. -/
  | print (pieces : List Piece)
  /-- What was printed is to be written, whether this succeeds or not. -/
  | flush

/-- What an action prints. -/
def Action.pieces : Action → List Piece
  | .print pieces => pieces
  | .flush => []

/-- One action, on the printer and the state of its writer. -/
def act (writer : Writer σ) : Printer × σ → Action → Printer × σ
  | (p, s), .print pieces => (p.run pieces, s)
  | (p, s), .flush => (p.flush writer s).2

/-- Actions one after the other. -/
def actAll (writer : Writer σ) (p : Printer) (s : σ) (actions : List Action) : Printer × σ :=
  actions.foldl (act writer) (p, s)

end Printer

namespace Account

variable {σ : Type} {writer : Writer σ} (account : Account writer)

/-- From `s` on, the writer took some parts of what `q` holds, which was never flushed. The rest of
it is what `p` holds, and both are at the same position. -/
structure Complete (s : σ) (q : Printer) (spans : List Span) (p : Printer) (t : σ) : Prop where
  took : account.Took s spans t
  /-- Each text and each mapping is there once, in the order in which it was printed. -/
  whole : Span.join (spans ++ [p.span]) = (q.out, q.mappings)
  same : p.clear = q.clear

namespace Complete

variable {account} {s t : σ} {p q : Printer} {spans : List Span}

theorem start (p : Printer) (s : σ) : account.Complete s p [] p s :=
  ⟨.refl, Span.join_singleton p.span, rfl⟩

/-- What is printed stays with the printer. -/
theorem print (h : account.Complete s q spans p t) (pieces : List Piece) :
    account.Complete s (q.run pieces) spans (p.run pieces) t := by
  obtain ⟨hpout, hpmappings, hpclear⟩ := p.run_clear pieces
  obtain ⟨hqout, hqmappings, hqclear⟩ := q.run_clear pieces
  obtain ⟨hout, hmappings⟩ := Prod.mk.inj h.whole.symm
  refine ⟨h.took, ?_, by rw [hpclear, hqclear, h.same]⟩
  rw [Span.join_append, Span.join_singleton] at hout hmappings ⊢
  rw [hqout, hqmappings, hout, hmappings, ← h.same]
  simp [Printer.span, hpout, hpmappings, String.append_assoc]

/-- A flush moves what the printer holds over to the writer, or changes nothing. -/
theorem flush (h : account.Complete s q spans p t) :
    ∃ spans, account.Complete s q spans (p.flush writer t).2.1 (p.flush writer t).2.2 := by
  cases hempty : p.isEmpty with
  | true => exact ⟨spans, by rwa [Printer.flush_empty hempty]⟩
  | false =>
    obtain ⟨e, t', hwrite, hflush⟩ | ⟨hwrite, hflush⟩ := Printer.flush_cases writer hempty t
    · rw [hflush]
      exact ⟨spans, by simpa using h.took.trans (account.took_error hwrite), h.whole, h.same⟩
    · rw [hflush]
      refine ⟨spans ++ [p.span], h.took.trans (account.took_deliver hwrite), ?_, h.same⟩
      rw [Span.join_append, h.whole, Span.join_singleton]
      simp [Printer.span, Printer.clear]

/-- One action keeps the account. -/
theorem act (h : account.Complete s q spans p t) (action : Printer.Action) :
    ∃ spans, account.Complete s (q.run action.pieces) spans
      (Printer.act writer (p, t) action).1 (Printer.act writer (p, t) action).2 := by
  cases action with
  | print pieces => exact ⟨spans, h.print pieces⟩
  | flush => exact h.flush

/-- So do all of them. -/
theorem actAll (h : account.Complete s q spans p t) (actions : List Printer.Action) :
    ∃ spans, account.Complete s (q.run (actions.flatMap (·.pieces))) spans
      (Printer.actAll writer p t actions).1 (Printer.actAll writer p t actions).2 := by
  induction actions generalizing q spans p t with
  | nil => exact ⟨spans, h⟩
  | cons action actions ih =>
    obtain ⟨spans, h⟩ := h.act action
    rw [List.flatMap_cons, Printer.run_append]
    exact ih h

end Complete

end Account

/-! ## The write that fails -/

/-- The write of the part with that index fails with `e` and leaves the writer at `t`, and those of
the parts before it succeed. -/
inductive FailsAt {σ : Type} (writer : Writer σ) (e : EmitError) (t : σ) :
    σ → List Span → Nat → Prop where
  | here {s span spans} : writer.write span.text s = (.error e, t) →
      FailsAt writer e t s (span :: spans) 0
  | later {s span spans k} : (writer.write span.text s).1 = .ok () →
      FailsAt writer e t (span.deliver writer s) spans k →
      FailsAt writer e t s (span :: spans) (k + 1)

/-- By then the writer took the parts before that one, and nothing else. -/
theorem FailsAt.took {σ : Type} {writer : Writer σ} {account : Account writer} {e : EmitError}
    {s t : σ} {spans : List Span} {k : Nat} (h : FailsAt writer e t s spans k) :
    account.Took s (spans.take k) t := by
  induction h with
  | here hwrite => exact account.took_error hwrite
  | later hwrite _ ih => exact (account.took_deliver hwrite).trans ih

namespace JavaScript

section
variable {σ : Type} (writer : Writer σ)

/-- Prints parts and flushes after each. A failure ends the output. -/
def emitParts : List (List Piece) → Printer → σ → Except EmitError Unit × Printer × σ
  | [], p, s => (.ok (), p, s)
  | part :: parts, p, s =>
    match emitPieces writer part p s with
    | (.ok (), p, s) => emitParts parts p s
    | failed => failed

theorem emitStmts_eq (sep : Separator) (follows : Bool) (stmts : List (List Piece)) (p : Printer)
    (s : σ) :
    emitStmts writer sep follows stmts p s =
      emitParts writer (Layout.stmtParts sep follows stmts) p s := by
  induction stmts generalizing follows p s with
  | nil => rfl
  | cons stmt stmts ih =>
    rw [emitStmts, Layout.stmtParts, emitParts]
    obtain ⟨_ | _, p, s⟩ := emitPieces writer (Layout.stmtLine sep follows stmt) p s
    · rfl
    · exact ih true p s

theorem Program.emit_eq (program : Program) (options : PrintOptions) (s : σ) :
    program.emit writer options s =
      emitParts writer (program.parts options.separator) (.start options) s := by
  have hlive : (livePieces options.separator program.body).map (·.2) =
      (live program.body).map (·.pieces options.separator) := by
    rw [livePieces_eq, List.map_map]
    rfl
  rw [emit, parts, hlive]
  by_cases himports : program.imports = []
  · -- There is nothing to write before the statements.
    rw [himports, if_pos rfl, List.nil_append, ← emitStmts_eq]
    rfl
  · rw [if_neg himports, List.singleton_append, emitParts]
    obtain ⟨_ | _, p, s⟩ := emitPieces writer (importsPieces options.separator program.imports)
      (.start options) s
    · rfl
    · exact emitStmts_eq writer _ false _ p s

/-- Each part of a program prints something. -/
theorem Program.parts_not_empty (sep : Separator) (program : Program) :
    ∀ part ∈ program.parts sep, ∀ p : Printer, (p.run part).isEmpty = false := by
  have hstmts : ∀ (follows : Bool) (stmts : List (List Piece)),
      ∀ part ∈ Layout.stmtParts sep follows stmts, ∀ p : Printer,
        (p.run part).isEmpty = false := by
    intro follows stmts
    induction stmts generalizing follows with
    | nil => simp [Layout.stmtParts]
    | cons stmt stmts ih =>
      rintro part (_ | ⟨_, hpart⟩) p
      · exact Layout.run_line_not_empty p _
      · exact ih true part hpart p
  intro part hpart p
  rw [parts, List.mem_append] at hpart
  obtain himports | hbody := hpart
  · split at himports
    · simp at himports
    · rename_i hne
      rw [List.mem_singleton.1 himports]
      exact importsPieces_not_empty sep p hne
  · exact hstmts false _ part hbody p

end

section
variable {σ : Type} {writer : Writer σ} {e : EmitError} {t : σ}

/-- The output ends early just where a write fails. -/
theorem emitParts_error {parts : List (List Piece)}
    (hparts : ∀ part ∈ parts, ∀ p : Printer, (p.run part).isEmpty = false) (p : Printer)
    (hp : p.clear = p) (s : σ) :
    (∃ held, emitParts writer parts p s = (.error e, held, t)) ↔
      ∃ k, FailsAt writer e t s (p.spans parts) k := by
  induction parts generalizing p s with
  | nil =>
    constructor
    · rintro ⟨held, h⟩
      simp [emitParts] at h
    · rintro ⟨k, ⟨⟩⟩
  | cons part parts ih =>
    have hempty := hparts part (.head parts) p
    have ih := ih (fun part h => hparts part (.tail _ h)) (p.run part).clear rfl
    rw [Printer.spans, hp, ← Printer.spans_clear, emitParts, emitPieces]
    obtain ⟨e', t', hwrite, hflush⟩ | ⟨hwrite, hflush⟩ := Printer.flush_cases writer hempty s
    · rw [hflush]
      constructor
      · rintro ⟨held, h⟩
        obtain ⟨rfl, -, rfl⟩ : e' = e ∧ p.run part = held ∧ t' = t := by simpa using h
        exact ⟨0, .here hwrite⟩
      · rintro ⟨k, hwrite' | ⟨hok, -⟩⟩
        · obtain ⟨rfl, rfl⟩ : e' = e ∧ t' = t := by simpa using hwrite.symm.trans hwrite'
          exact ⟨_, rfl⟩
        · rw [hwrite] at hok
          simp at hok
    · rw [hflush]
      refine (ih _).trans ⟨?_, ?_⟩
      · rintro ⟨k, h⟩
        exact ⟨k + 1, .later hwrite h⟩
      · rintro ⟨k, hwrite' | ⟨-, h⟩⟩
        · rw [hwrite'] at hwrite
          simp at hwrite
        · exact ⟨_, h⟩

/-- The parts of the text that a program prints, one for each write. -/
def Program.spans (program : Program) (options : PrintOptions) : List Span :=
  (Printer.start options).spans (program.parts options.separator)

/-- What flushing does, for a writer that takes a text as a whole or not at all. -/
structure Lossless (account : Account writer) (options : PrintOptions) (s : σ) : Prop where
  /-- Whatever is printed, and whenever a flush is tried, what the writer took and what the printer
  holds is what was printed. -/
  complete : ∀ actions, ∃ spans,
    account.Complete s ((Printer.start options).run (actions.flatMap (·.pieces))) spans
      (Printer.actAll writer (.start options) s actions).1
      (Printer.actAll writer (.start options) s actions).2
  /-- Where there is nothing to write, nothing is written. -/
  empty : ∀ (p : Printer) t, p.isEmpty = true → p.flush writer t = (.ok (), p, t)
  /-- A flush that fails changes nothing. -/
  failed : ∀ (p : Printer) t e q u, p.flush writer t = (.error e, q, u) →
    q = p ∧ account.Took t [] u
  /-- The parts of a program are what it prints in memory. -/
  parts : ∀ program : Program, Span.join (program.spans options) = program.print options ∧
    (program.spans options).length = program.importWrites + (live program.body).length
  /-- The output of a program ends early just where a write of one of its parts fails. -/
  aborted : ∀ (program : Program) e t,
    (∃ held, program.emit writer options s = (.error e, held, t)) ↔
      ∃ k, FailsAt writer e t s (program.spans options) k
  /-- By then the parts before it are written, and nothing else is. -/
  delivered : ∀ (program : Program) e t k, FailsAt writer e t s (program.spans options) k →
    account.Took s ((program.spans options).take k) t

/-- Flushing loses nothing and repeats nothing. -/
theorem flushing_lossless (account : Account writer) (options : PrintOptions) (s : σ) :
    Lossless account options s where
  complete := Account.Complete.actAll (.start _ s)
  empty _ t h := Printer.flush_empty h t
  failed _ _ _ _ _ h := Printer.flush_error h
  parts program := by
    refine ⟨?_, (Printer.spans_length _ _).trans (program.parts_length _)⟩
    rw [Program.spans, Printer.join_spans, Program.flatten_parts]
    rfl
  aborted program e t := by
    rw [Program.emit_eq]
    exact emitParts_error (program.parts_not_empty _) _ rfl s
  delivered _ _ _ _ h := h.took

end

/-- A program whose second write fails is written up to its imports. -/
theorem greeting_aborts :
    ∃ t, FailsAt Refusing.writer ⟨"no space left"⟩ t .second (greeting.spans .default) 1 ∧
      (∃ held, greeting.emit Refusing.writer .default .second =
        (.error ⟨"no space left"⟩, held, t)) ∧
      Refusing.account.Took .second ((greeting.spans .default).take 1) t := by
  obtain ⟨-, -, -, -, haborted, hdelivered⟩ :=
    flushing_lossless Refusing.account .default .second
  have hfails : FailsAt Refusing.writer ⟨"no space left"⟩ _ .second (greeting.spans .default) 1 :=
    .later rfl (.here rfl)
  exact ⟨_, hfails, (haborted greeting _ _).2 ⟨1, hfails⟩, hdelivered greeting _ _ 1 hfails⟩

end JavaScript

end TypedLowering
