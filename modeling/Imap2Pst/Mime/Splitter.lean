import Imap2Pst.Mime.Headers
import Imap2Pst.Std.Text

/-!
# Mime.Splitter

`splitOutsideQuotes` octet by octet, and the address list as a sequence of groups.

* `Lexer`               — where the loop stands between two octets.
* `cut`                 — the pieces of a text that is entered in some state.
* `cut_append`          — a text is cut in two halves.
* `parseAddressList_eq` — the groups of an address list are read one by one.
-/

namespace Imap2Pst
namespace Mime

open CxxStd

/-! ## The lexer -/

/-- What the next octet belongs to. -/
inductive Mode
  | outside
  | quotes
  /-- behind a backslash -/
  | quotesEscape
  /-- a comment inside `depth` others -/
  | comment (depth : Nat)
  | commentEscape (depth : Nat)
  deriving DecidableEq

structure Lexer where
  mode : Mode := .outside
  angle : Bool := false
  deriving DecidableEq

/-- The octets that change the state of a lexer outside. -/
def marks : Bytes := [chr '"', chr '(', chr '<', chr '>']

namespace Lexer

def next (l : Lexer) (c : Byte) : Lexer :=
  match l.mode with
  | .outside =>
    if c = chr '"' then { l with mode := .quotes }
    else if c = chr '(' then { l with mode := .comment 0 }
    else if c = chr '<' then { l with angle := true }
    else if c = chr '>' then { l with angle := false }
    else l
  | .quotes =>
    if c = chr '\\' then { l with mode := .quotesEscape }
    else if c = chr '"' then { l with mode := .outside }
    else l
  | .quotesEscape => { l with mode := .quotes }
  | .comment depth =>
    if c = chr '\\' then { l with mode := .commentEscape depth }
    else if c = chr '(' then { l with mode := .comment (depth + 1) }
    else if c = chr ')' then
      match depth with
      | 0 => { l with mode := .outside }
      | depth + 1 => { l with mode := .comment depth }
    else l
  | .commentEscape depth => { l with mode := .comment depth }

def run (l : Lexer) (s : Bytes) : Lexer := s.foldl next l

/-- Comments are not part of the value. -/
def keeps (l : Lexer) (c : Byte) : Bool :=
  match l.mode with
  | .outside => c ≠ chr '('
  | .quotes | .quotesEscape => true
  | .comment _ | .commentEscape _ => false

def cuts (sep : Byte) (l : Lexer) (c : Byte) : Bool := l = {} ∧ c = sep ∧ c ∉ marks

@[simp] theorem run_nil (l : Lexer) : l.run [] = l := rfl

@[simp] theorem run_cons (l : Lexer) (c : Byte) (s : Bytes) :
    l.run (c :: s) = (l.next c).run s := rfl

@[simp] theorem run_append (l : Lexer) (a b : Bytes) : l.run (a ++ b) = (l.run a).run b :=
  List.foldl_append

/-- The lexer as `splitFrom` keeps it. -/
def state (l : Lexer) : SplitState :=
  match l.mode with
  | .outside => { inAngle := l.angle }
  | .quotes | .quotesEscape => { inQuotes := true, inAngle := l.angle }
  | .comment depth | .commentEscape depth => { inAngle := l.angle, commentDepth := depth + 1 }

end Lexer

/-! ## Pieces -/

/-- Octets in front of the first piece. -/
def pushFront (front : Bytes) : List Bytes → List Bytes
  | [] => [front]
  | p :: ps => (front ++ p) :: ps

/-- The last piece and the first one are two halves of one. -/
def glue : List Bytes → List Bytes → List Bytes
  | [], qs => qs
  | [p], qs => pushFront p qs
  | p :: p' :: ps, qs => p :: glue (p' :: ps) qs

def cut (sep : Byte) (l : Lexer) : Bytes → List Bytes
  | [] => [[]]
  | c :: cs =>
    if l.cuts sep c then [] :: cut sep (l.next c) cs
    else pushFront (if l.keeps c then [c] else []) (cut sep (l.next c) cs)

@[simp] theorem pushFront_cons (front p : Bytes) (ps : List Bytes) :
    pushFront front (p :: ps) = (front ++ p) :: ps := rfl

@[simp] theorem pushFront_pushFront (a b : Bytes) (ps : List Bytes) :
    pushFront a (pushFront b ps) = pushFront (a ++ b) ps := by
  cases ps with
  | nil => rfl
  | cons p ps => rw [pushFront_cons, pushFront_cons, pushFront_cons, List.append_assoc]

theorem pushFront_ne_nil (front : Bytes) (ps : List Bytes) : pushFront front ps ≠ [] := by
  cases ps <;> exact List.cons_ne_nil _ _

theorem cut_ne_nil (sep : Byte) (l : Lexer) (s : Bytes) : cut sep l s ≠ [] := by
  cases s with
  | nil => exact List.cons_ne_nil _ _
  | cons c cs =>
    rw [cut]
    split
    · exact List.cons_ne_nil _ _
    · exact pushFront_ne_nil _ _

theorem pushFront_nil {ps : List Bytes} (h : ps ≠ []) : pushFront [] ps = ps := by
  cases ps with
  | nil => exact absurd rfl h
  | cons p ps => rfl

theorem glue_pushFront (front : Bytes) {ps : List Bytes} (h : ps ≠ []) (qs : List Bytes) :
    glue (pushFront front ps) qs = pushFront front (glue ps qs) := by
  cases ps with
  | nil => exact absurd rfl h
  | cons p ps =>
    cases ps with
    | nil => rw [pushFront_cons, glue, glue, pushFront_pushFront]
    | cons p' ps => rfl

/-- A text is cut up to some octet, and from there on in the state reached. -/
theorem cut_append (sep : Byte) (l : Lexer) (a b : Bytes) :
    cut sep l (a ++ b) = glue (cut sep l a) (cut sep (l.run a) b) := by
  induction a generalizing l with
  | nil => exact (pushFront_nil (cut_ne_nil _ _ _)).symm
  | cons c a ih =>
    rw [List.cons_append, cut, cut, Lexer.run_cons]
    split
    · rw [ih]
      obtain ⟨p, ps, hps⟩ := List.exists_cons_of_ne_nil (cut_ne_nil sep (l.next c) a)
      rw [hps]
      rfl
    · rw [ih, glue_pushFront _ (cut_ne_nil _ _ _)]

theorem not_cuts_of_mode {sep : Byte} {l : Lexer} (h : l.mode ≠ .outside) (c : Byte) :
    l.cuts sep c = false :=
  decide_eq_false fun hcut => h (by rw [hcut.1])

theorem not_cuts_of_mark {sep c : Byte} (h : c ∈ marks) (l : Lexer) : l.cuts sep c = false :=
  decide_eq_false fun hcut => hcut.2.2 h

/-- One octet of the loop outside quoted strings and comments. -/
theorem splitFrom_outside (sep c : Byte) (angle : Bool) (current cs : Bytes) :
    splitFrom sep { inAngle := angle } current (c :: cs) =
      let l : Lexer := ⟨.outside, angle⟩
      if l.cuts sep c then current :: splitFrom sep (l.next c).state [] cs
      else splitFrom sep (l.next c).state (current ++ if l.keeps c then [c] else []) cs := by
  have hcuts : Lexer.cuts sep ⟨.outside, angle⟩ c = decide (angle = false ∧ c = sep ∧ c ∉ marks) := by
    simp [Lexer.cuts]
  rw [splitFrom.eq_def]
  simp only [Bool.false_eq_true, if_false, Nat.lt_irrefl, hcuts, Lexer.next]
  by_cases hquote : c = chr '"'
  · subst hquote
    simp [Lexer.state, Lexer.keeps, show chr '"' ∈ marks by decide, show chr '"' ≠ chr '(' by decide]
  by_cases hopen : c = chr '('
  · subst hopen
    simp [Lexer.state, Lexer.keeps, show chr '(' ∈ marks by decide, hquote]
  by_cases hangle : c = chr '<'
  · subst hangle
    simp [Lexer.state, Lexer.keeps, show chr '<' ∈ marks by decide, hquote, hopen]
  by_cases hclose : c = chr '>'
  · subst hclose
    simp [Lexer.state, Lexer.keeps, show chr '>' ∈ marks by decide, hquote, hopen, hangle]
  have hmarks : c ∉ marks := by simp [marks, hquote, hopen, hangle, hclose]
  simp only [if_neg hquote, if_neg hopen, if_neg hangle, if_neg hclose]
  have hswap : (c = sep ∧ ¬ angle = true) ↔ angle = false ∧ c = sep ∧ c ∉ marks := by
    simp [hmarks, and_comm]
  by_cases hsep : c = sep ∧ ¬ angle = true
  · rw [if_pos hsep, decide_eq_true (hswap.1 hsep), if_pos rfl]
    rfl
  · have hkeeps : Lexer.keeps ⟨.outside, angle⟩ c = true := decide_eq_true hopen
    rw [if_neg hsep, decide_eq_false (mt hswap.2 hsep), if_neg Bool.false_ne_true, hkeeps, if_pos rfl]
    rfl

/-- The loop cuts its text, behind the piece it is in. -/
theorem splitFrom_eq (sep : Byte) : ∀ (s : Bytes) (l : Lexer) (current : Bytes),
    (∀ d, l.mode ≠ .commentEscape d) → l.mode ≠ .quotesEscape →
      splitFrom sep l.state current s = pushFront current (cut sep l s)
  | [], l, current, _, _ => by
    rw [splitFrom, cut, pushFront_cons, List.append_nil]
  | c :: cs, ⟨.outside, angle⟩, current, _, _ => by
    have hescape : (∀ d, (Lexer.next ⟨.outside, angle⟩ c).mode ≠ .commentEscape d) ∧
        (Lexer.next ⟨.outside, angle⟩ c).mode ≠ .quotesEscape := by
      simp only [Lexer.next]
      split_ifs <;> simp
    rw [show Lexer.state ⟨.outside, angle⟩ = { inAngle := angle } from rfl, splitFrom_outside, cut]
    dsimp only
    rw [splitFrom_eq sep cs _ _ hescape.1 hescape.2, splitFrom_eq sep cs _ _ hescape.1 hescape.2,
      pushFront_nil (cut_ne_nil _ _ _)]
    split
    · rw [pushFront_cons, List.append_nil]
    · rw [pushFront_pushFront]
  | [c], ⟨.quotes, angle⟩, current, _, _ => by
    rw [cut, not_cuts_of_mode (by simp), splitFrom.eq_def]
    simp [Lexer.state, Lexer.keeps, cut]
  | c :: d :: cs, ⟨.quotes, angle⟩, current, _, _ => by
    rw [cut, not_cuts_of_mode (by simp), splitFrom.eq_def]
    simp only [Lexer.state, if_true, Lexer.keeps, Bool.false_eq_true, if_false]
    by_cases hescape : c = chr '\\'
    · have hnext : Lexer.next ⟨.quotes, angle⟩ c = ⟨.quotesEscape, angle⟩ := if_pos hescape
      have ih := splitFrom_eq sep cs ⟨.quotes, angle⟩ (current ++ [c, d]) (by simp) (by simp)
      rw [if_pos hescape, hnext, cut, not_cuts_of_mode (by simp), pushFront_pushFront]
      simpa [Lexer.keeps, Lexer.next, Lexer.state] using ih
    · have ih := splitFrom_eq sep (d :: cs) (Lexer.next ⟨.quotes, angle⟩ c) (current ++ [c])
      by_cases hquote : c = chr '"'
      · subst hquote
        simpa [Lexer.next, hescape, Lexer.state] using ih
      · simpa [Lexer.next, hescape, hquote, Lexer.state] using ih
  | [c], ⟨.comment depth, angle⟩, current, _, _ => by
    rw [cut, not_cuts_of_mode (by simp), splitFrom.eq_def]
    simp [Lexer.state, Lexer.keeps, cut]
  | c :: d :: cs, ⟨.comment depth, angle⟩, current, _, _ => by
    rw [cut, not_cuts_of_mode (by simp), splitFrom.eq_def]
    simp only [Lexer.state, if_true, Lexer.keeps, Bool.false_eq_true, if_false, Nat.zero_lt_succ]
    by_cases hescape : c = chr '\\'
    · have hnext : Lexer.next ⟨.comment depth, angle⟩ c = ⟨.commentEscape depth, angle⟩ :=
        if_pos hescape
      have ih := splitFrom_eq sep cs ⟨.comment depth, angle⟩ current (by simp) (by simp)
      rw [if_pos hescape, hnext, cut, not_cuts_of_mode (by simp), pushFront_pushFront]
      simpa [Lexer.keeps, Lexer.next, Lexer.state] using ih
    · have ih := splitFrom_eq sep (d :: cs) (Lexer.next ⟨.comment depth, angle⟩ c) current
      by_cases hopen : c = chr '('
      · subst hopen
        have hclose : chr '(' ≠ chr ')' := by decide
        simpa [Lexer.next, hescape, hclose, Lexer.state] using ih
      · by_cases hclose : c = chr ')'
        · subst hclose
          cases depth with
          | zero => simpa [Lexer.next, hescape, hopen, Lexer.state] using ih
          | succ depth => simpa [Lexer.next, hescape, hopen, Lexer.state] using ih
        · simpa [Lexer.next, hescape, hopen, hclose, Lexer.state] using ih
  | _, ⟨.quotesEscape, _⟩, _, _, h => absurd rfl h
  | _, ⟨.commentEscape _, _⟩, _, h, _ => absurd rfl (h _)

theorem splitOutsideQuotes_eq (s : Bytes) (sep : Byte) :
    splitOutsideQuotes s sep = cut sep {} s := by
  have h := splitFrom_eq sep s {} [] (by simp) (by simp)
  rwa [pushFront_nil (cut_ne_nil _ _ _)] at h

theorem splitOutsideQuotes_ne_nil (s : Bytes) (sep : Byte) : splitOutsideQuotes s sep ≠ [] :=
  splitOutsideQuotes_eq s sep ▸ cut_ne_nil sep {} s

/-! ## Settled texts -/

/-- Nothing is open at the end of the text. -/
def Settled (s : Bytes) : Prop := Lexer.run {} s = {}

instance (s : Bytes) : Decidable (Settled s) := inferInstanceAs (Decidable (Lexer.run {} s = {}))

theorem Settled.append {a b : Bytes} (ha : Settled a) (hb : Settled b) : Settled (a ++ b) := by
  rw [Settled, Lexer.run_append, ha, hb]

theorem not_mem_marks {c : Byte} (h : c ∉ marks) :
    c ≠ chr '"' ∧ c ≠ chr '(' ∧ c ≠ chr '<' ∧ c ≠ chr '>' := by
  simpa only [marks, List.mem_cons, List.not_mem_nil, or_false, not_or] using h

theorem next_plain {c : Byte} (h : c ∉ marks) : Lexer.next {} c = {} := by
  obtain ⟨hquote, hopen, hless, hgreater⟩ := not_mem_marks h
  simp [Lexer.next, hquote, hopen, hless, hgreater]

theorem splitOutsideQuotes_append {a : Bytes} (h : Settled a) (b : Bytes) (sep : Byte) :
    splitOutsideQuotes (a ++ b) sep =
      glue (splitOutsideQuotes a sep) (splitOutsideQuotes b sep) := by
  rw [splitOutsideQuotes_eq, cut_append, h, ← splitOutsideQuotes_eq, ← splitOutsideQuotes_eq]

theorem glue_nil_cons {ps : List Bytes} (h : ps ≠ []) (qs : List Bytes) :
    glue ps ([] :: qs) = ps ++ qs := by
  induction ps with
  | nil => exact absurd rfl h
  | cons p ps ih =>
    cases ps with
    | nil => rw [glue, pushFront_cons, List.append_nil]; rfl
    | cons p' ps =>
      rw [glue, ih (List.cons_ne_nil _ _)]
      rfl

/-- A separator behind a settled text cuts. -/
theorem splitOutsideQuotes_sep {a : Bytes} (h : Settled a) {sep : Byte} (hsep : sep ∉ marks)
    (b : Bytes) : splitOutsideQuotes (a ++ sep :: b) sep =
      splitOutsideQuotes a sep ++ splitOutsideQuotes b sep := by
  have hcuts : Lexer.cuts sep {} sep = true := decide_eq_true ⟨rfl, rfl, hsep⟩
  have hb : splitOutsideQuotes (sep :: b) sep = [] :: splitOutsideQuotes b sep := by
    rw [splitOutsideQuotes_eq, cut, hcuts, if_pos rfl, next_plain hsep, ← splitOutsideQuotes_eq]
  rw [splitOutsideQuotes_append h, hb, glue_nil_cons (splitOutsideQuotes_ne_nil _ _)]

/-- White space opens and closes nothing. -/
theorem run_blank {b : Bytes} (hb : Blank b) (l : Lexer) : l.run b = {} ↔ l = {} := by
  induction b generalizing l with
  | nil => rfl
  | cons c b ih =>
    rw [blank_cons] at hb
    rw [Lexer.run_cons, ih hb.2]
    have hall : ∀ c : Byte, isSpace c = true → c ≠ chr '"' ∧ c ≠ chr '(' ∧ c ≠ chr ')' ∧
        c ≠ chr '<' ∧ c ≠ chr '>' ∧ c ≠ chr '\\' := forall_byte (by decide +kernel)
    obtain ⟨hquote, hopen, hclose, hless, hgreater, hescape⟩ := hall c hb.1
    obtain ⟨mode, angle⟩ := l
    cases mode <;> simp [Lexer.next, hquote, hopen, hclose, hless, hgreater, hescape]

theorem settled_blank {b : Bytes} (hb : Blank b) : Settled b := (run_blank hb {}).2 rfl

theorem settled_trim {s : Bytes} : Settled (trim s) ↔ Settled s := by
  obtain ⟨a, b, hs, ha, hb⟩ := exists_trim s
  conv_rhs => rw [hs]
  rw [Settled, Settled, Lexer.run_append, run_blank hb, Lexer.run_append, settled_blank ha]

/-! ## Passing -/

/-- The octets of a text belong to one piece, of which they are the part `kept`. -/
structure Passes (sep : Byte) (l : Lexer) (s kept : Bytes) (r : Lexer) : Prop where
  cut_eq : cut sep l s = [kept]
  run_eq : l.run s = r

namespace Passes

variable {sep : Byte} {l m r : Lexer} {a b kept kept' : Bytes}

theorem nil (sep : Byte) (l : Lexer) : Passes sep l [] [] l := ⟨rfl, rfl⟩

theorem append (ha : Passes sep l a kept m) (hb : Passes sep m b kept' r) :
    Passes sep l (a ++ b) (kept ++ kept') r := by
  refine ⟨?_, by rw [Lexer.run_append, ha.run_eq, hb.run_eq]⟩
  rw [cut_append, ha.cut_eq, ha.run_eq, hb.cut_eq]
  rfl

theorem octet {c : Byte} (h : l.cuts sep c = false) :
    Passes sep l [c] (if l.keeps c then [c] else []) (l.next c) := by
  refine ⟨?_, rfl⟩
  rw [cut, h, if_neg Bool.false_ne_true, cut, pushFront_cons, List.append_nil]

theorem cons {c : Byte} (hc : l.cuts sep c = false) (h : Passes sep (l.next c) a kept r) :
    Passes sep l (c :: a) ((if l.keeps c then [c] else []) ++ kept) r := (octet hc).append h

theorem split (h : Passes sep {} a kept {}) : splitOutsideQuotes a sep = [kept] ∧ Settled a :=
  ⟨splitOutsideQuotes_eq a sep ▸ h.cut_eq, h.run_eq⟩

/-- An octet that is no mark stays where it is, unless it is a separator that cuts. -/
theorem stay {c : Byte} {angle : Bool} (hmarks : c ∉ marks) (hsep : angle = false → c ≠ sep) :
    Passes sep ⟨.outside, angle⟩ [c] [c] ⟨.outside, angle⟩ := by
  obtain ⟨hquote, hopen, hless, hgreater⟩ := not_mem_marks hmarks
  have hcuts : Lexer.cuts sep ⟨.outside, angle⟩ c = false :=
    decide_eq_false fun hcut => hsep (congrArg Lexer.angle hcut.1) hcut.2.1
  have hnext : Lexer.next ⟨.outside, angle⟩ c = ⟨.outside, angle⟩ := by
    simp [Lexer.next, hquote, hopen, hless, hgreater]
  have hkeeps : Lexer.keeps ⟨.outside, angle⟩ c = true := decide_eq_true hopen
  have h := octet hcuts
  rwa [hkeeps, if_pos rfl, hnext] at h

theorem outside {angle : Bool} (h : ∀ c ∈ a, c ∉ marks ∧ (angle = false → c ≠ sep)) :
    Passes sep ⟨.outside, angle⟩ a a ⟨.outside, angle⟩ := by
  induction a with
  | nil => exact nil sep _
  | cons c a ih =>
    rw [List.forall_mem_cons] at h
    exact (stay h.1.1 h.1.2).append (ih h.2)

/-- A text without marks and separators is one piece. -/
theorem plain (h : ∀ c ∈ a, c ∉ marks ∧ c ≠ sep) : Passes sep {} a a {} :=
  outside fun c hc => ⟨(h c hc).1, fun _ => (h c hc).2⟩

end Passes

/-- What stands between the quotes of a quoted string. -/
inductive QuotedBody : Bytes → Prop
  | nil : QuotedBody []
  | octet {c : Byte} {s : Bytes} (hquote : c ≠ chr '"') (hescape : c ≠ chr '\\')
      (h : QuotedBody s) : QuotedBody (c :: s)
  | pair {c : Byte} {s : Bytes} (h : QuotedBody s) : QuotedBody (chr '\\' :: c :: s)

theorem QuotedBody.passes {body : Bytes} (h : QuotedBody body) (sep : Byte) (angle : Bool) :
    Passes sep ⟨.quotes, angle⟩ body body ⟨.quotes, angle⟩ := by
  induction h with
  | nil => exact .nil sep _
  | @octet c s hquote hescape h ih =>
    have hnext : Lexer.next ⟨.quotes, angle⟩ c = ⟨.quotes, angle⟩ := by
      simp [Lexer.next, hescape, hquote]
    refine .cons (not_cuts_of_mode (by simp) _) ?_
    rw [hnext]
    exact ih
  | @pair c s h ih =>
    have hnext : Lexer.next ⟨.quotes, angle⟩ (chr '\\') = ⟨.quotesEscape, angle⟩ := by
      simp [Lexer.next]
    refine .cons (not_cuts_of_mode (by simp) _) ?_
    rw [hnext]
    exact .cons (not_cuts_of_mode (by simp) _) ih

/-- A quoted string passes, whatever stands in it. -/
theorem QuotedBody.passes_quoted {body : Bytes} (h : QuotedBody body) (sep : Byte) (angle : Bool) :
    Passes sep ⟨.outside, angle⟩ (chr '"' :: (body ++ [chr '"'])) (chr '"' :: (body ++ [chr '"']))
      ⟨.outside, angle⟩ := by
  have hopen : Passes sep ⟨.outside, angle⟩ [chr '"'] [chr '"'] ⟨.quotes, angle⟩ :=
    .octet (not_cuts_of_mark (by decide) _)
  have hclose : Passes sep ⟨.quotes, angle⟩ [chr '"'] [chr '"'] ⟨.outside, angle⟩ :=
    .octet (not_cuts_of_mode (by simp) _)
  exact hopen.append ((h.passes sep angle).append hclose)

/-- Between angle brackets nothing cuts. -/
theorem Passes.angle {s kept : Bytes} {sep : Byte}
    (h : Passes sep ⟨.outside, true⟩ s kept ⟨.outside, true⟩) :
    Passes sep {} (chr '<' :: (s ++ [chr '>'])) (chr '<' :: (kept ++ [chr '>'])) {} := by
  have hopen : Passes sep {} [chr '<'] [chr '<'] ⟨.outside, true⟩ :=
    .octet (not_cuts_of_mark (by decide) _)
  have hclose : Passes sep ⟨.outside, true⟩ [chr '>'] [chr '>'] {} :=
    .octet (not_cuts_of_mark (by decide) _)
  exact hopen.append (h.append hclose)

/-! ## Values -/

namespace Lexer

/-- The lexer on a value, whose comments have been dropped. -/
def bare (l : Lexer) : Lexer :=
  match l.mode with
  | .comment _ | .commentEscape _ => { l with mode := .outside }
  | .outside | .quotes | .quotesEscape => l

theorem bare_next (l : Lexer) (c : Byte) :
    (l.next c).bare = if l.keeps c then l.bare.next c else l.bare := by
  obtain ⟨mode, angle⟩ := l
  cases mode with
  | outside =>
    by_cases hopen : c = chr '('
    · subst hopen
      rfl
    · have hkeeps : keeps ⟨.outside, angle⟩ c = true := decide_eq_true hopen
      rw [hkeeps, if_pos rfl]
      simp only [next, if_neg hopen]
      split_ifs <;> rfl
  | quotes =>
    rw [show keeps ⟨.quotes, angle⟩ c = true from rfl, if_pos rfl]
    simp only [next]
    split_ifs <;> rfl
  | quotesEscape => rfl
  | comment depth =>
    rw [show keeps ⟨.comment depth, angle⟩ c = false from rfl, if_neg Bool.false_ne_true]
    simp only [next]
    split_ifs
    · rfl
    · rfl
    · cases depth <;> rfl
    · rfl
  | commentEscape depth => rfl

/-- Every octet of the text is kept. -/
def Keeps (l : Lexer) : Bytes → Prop
  | [] => True
  | c :: cs => l.keeps c = true ∧ (l.next c).Keeps cs

theorem keeps_append {l : Lexer} {a b : Bytes} :
    l.Keeps (a ++ b) ↔ l.Keeps a ∧ (l.run a).Keeps b := by
  induction a generalizing l with
  | nil => simp [Keeps]
  | cons c a ih => rw [List.cons_append, Keeps, Keeps, ih, run_cons, and_assoc]

end Lexer

/-- Pieces that lie between two states, with nothing open where one ends and the next begins. -/
def Between (l r : Lexer) : List Bytes → Prop
  | [] => False
  | [p] => l.Keeps p ∧ l.run p = r
  | p :: p' :: ps => (l.Keeps p ∧ l.run p = {}) ∧ Between {} r (p' :: ps)

theorem Between.pushFront {l r : Lexer} {front : Bytes} {ps : List Bytes} (hfront : l.Keeps front)
    (h : Between (l.run front) r ps) : Between l r (pushFront front ps) := by
  cases ps with
  | nil => exact h.elim
  | cons p ps =>
    cases ps with
    | nil => exact ⟨Lexer.keeps_append.2 ⟨hfront, h.1⟩, by rw [Lexer.run_append, h.2]⟩
    | cons p' ps =>
      exact ⟨⟨Lexer.keeps_append.2 ⟨hfront, h.1.1⟩, by rw [Lexer.run_append, h.1.2]⟩, h.2⟩

/-- The text is cut where nothing is open, and its pieces hold no comment. -/
theorem cut_between (sep : Byte) (l : Lexer) (s : Bytes) :
    Between l.bare (l.run s).bare (cut sep l s) := by
  induction s generalizing l with
  | nil => exact ⟨trivial, rfl⟩
  | cons c cs ih =>
    rw [cut, Lexer.run_cons]
    have hnext := l.bare_next c
    split
    · rename_i hcuts
      obtain ⟨rfl, rfl, hmarks⟩ := of_decide_eq_true hcuts
      rw [next_plain hmarks]
      have hrest := ih {}
      obtain ⟨p, ps, hps⟩ := List.exists_cons_of_ne_nil (cut_ne_nil c {} cs)
      rw [hps] at hrest ⊢
      exact ⟨⟨trivial, rfl⟩, hrest⟩
    · have hrest := ih (l.next c)
      rw [hnext] at hrest
      cases hkeeps : l.keeps c with
      | true =>
        rw [hkeeps, if_pos rfl] at hrest
        refine Between.pushFront ⟨?_, trivial⟩ hrest
        obtain ⟨mode, angle⟩ := l
        cases mode with
        | comment depth => cases hkeeps
        | commentEscape depth => cases hkeeps
        | _ => exact hkeeps
      | false =>
        rw [hkeeps, if_neg Bool.false_ne_true] at hrest
        exact Between.pushFront trivial hrest

/-- Where a text is one piece, its value is cut as the text is. -/
theorem cut_kept {sep sep' : Byte} {l : Lexer} {s kept : Bytes} (h : cut sep' l s = [kept]) :
    cut sep l.bare kept = cut sep l s := by
  induction s generalizing l kept with
  | nil =>
    cases h
    rfl
  | cons c cs ih =>
    obtain ⟨p, ps, hps⟩ := List.exists_cons_of_ne_nil (cut_ne_nil sep' (l.next c) cs)
    rw [cut] at h
    split at h
    · rw [hps] at h
      cases h
    · rw [hps, pushFront_cons] at h
      cases h
      have hnext := l.bare_next c
      cases hkeeps : l.keeps c with
      | true =>
        have hbare : l.bare = l := by
          obtain ⟨mode, angle⟩ := l
          cases mode with
          | comment depth => cases hkeeps
          | commentEscape depth => cases hkeeps
          | _ => rfl
        rw [hkeeps, if_pos rfl, hbare] at hnext
        rw [if_pos rfl, hbare, List.singleton_append, cut, cut, ← ih hps, hnext]
      | false =>
        have hcuts : l.cuts sep c = false := by
          refine decide_eq_false fun hcut => ?_
          rw [hcut.1, Lexer.keeps, decide_eq_false_iff_not, not_not] at hkeeps
          exact hcut.2.2 (hkeeps ▸ by decide)
        rw [hkeeps, if_neg Bool.false_ne_true] at hnext
        rw [if_neg Bool.false_ne_true, List.nil_append, ← hnext, ih hps, cut, hcuts,
          if_neg Bool.false_ne_true, hkeeps, if_neg Bool.false_ne_true,
          pushFront_nil (cut_ne_nil _ _ _)]

theorem splitOutsideQuotes_between (s : Bytes) (sep : Byte) :
    Between {} (Lexer.run {} s).bare (splitOutsideQuotes s sep) := by
  rw [splitOutsideQuotes_eq]
  exact cut_between sep {} s

/-! ## Groups -/

/-- A label is passed over with nothing open behind it. -/
theorem run_label {label : Bytes} (hkeeps : Lexer.Keeps {} label) (hquote : chr '"' ∉ label)
    (hangle : chr '<' ∉ label) : Lexer.run {} label = {} := by
  induction label with
  | nil => rfl
  | cons c label ih =>
    rw [List.mem_cons, not_or] at hquote hangle
    have hopen : c ≠ chr '(' := of_decide_eq_true hkeeps.1
    have hstay : Lexer.next {} c = {} := by
      simp [Lexer.next, hopen, Ne.symm hquote.1, Ne.symm hangle.1]
    rw [Lexer.run_cons, hstay]
    exact ih (hstay ▸ hkeeps.2) hquote.2 hangle.2

theorem find_cases (s : Bytes) (c : Byte) : find s c 0 = none ∧ c ∉ s ∨
    ∃ pre post, s = pre ++ c :: post ∧ c ∉ pre ∧ find s c 0 = some pre.length := by
  by_cases h : c ∈ s
  · obtain ⟨pre, post, rfl, hpre⟩ := List.eq_append_cons_of_mem h
    exact .inr ⟨pre, post, rfl, hpre, by rw [find_of_append rfl hpre, Nat.zero_add]⟩
  · exact .inl ⟨find_eq_none (by rwa [List.drop_zero]), h⟩

/-- An octet that a label does not contain. -/
def isGuard (c : Byte) : Bool := c = chr '@' || c = chr '<' || c = chr '"'

/-- The first colon stands behind such an octet. -/
def Guarded (s : Bytes) : Prop := chr ':' ∉ s.takeWhile fun c => !isGuard c

theorem stripLabel_guarded {s : Bytes} (h : Guarded s) : stripLabel s = s := by
  obtain ⟨hnone, -⟩ | ⟨label, rest, rfl, hlabel, hfind⟩ := find_cases s (chr ':')
  · rw [stripLabel, hnone]
  · rw [stripLabel, hfind]
    dsimp only
    rw [List.take_left, if_pos]
    by_contra hnot
    rw [not_or, not_or] at hnot
    refine h ?_
    rw [List.takeWhile_append_of_pos]
    · exact List.mem_append_right _ List.mem_cons_self
    · intro c hc
      have hat : c ≠ chr '@' := fun heq => hnot.1 (heq ▸ hc)
      have hangle : c ≠ chr '<' := fun heq => hnot.2.1 (heq ▸ hc)
      have hquote : c ≠ chr '"' := fun heq => hnot.2.2 (heq ▸ hc)
      simp [isGuard, hat, hangle, hquote]

/-- What stands before the guard may be cut or prolonged, as long as it has no colon. -/
theorem guarded_append {a b : Bytes} (ha : ∀ c ∈ a, c ≠ chr ':' ∧ isGuard c = false) :
    Guarded (a ++ b) ↔ Guarded b := by
  have hmem : chr ':' ∉ a := fun h => (ha _ h).1 rfl
  rw [Guarded, List.takeWhile_append_of_pos fun c hc => by rw [(ha c hc).2]; rfl, List.mem_append,
    not_or, and_iff_right hmem]
  rfl

theorem guarded_of_append {a b : Bytes} (h : Guarded (a ++ b)) : Guarded a := by
  intro hmem
  refine h ?_
  rw [List.takeWhile_append]
  split
  · rename_i hall
    rw [(List.takeWhile_prefix _).eq_of_length hall] at hmem
    exact List.mem_append_left _ hmem
  · exact hmem

theorem guarded_of_mem {a : Bytes} (ha : Guarded a) (hmem : ∃ c ∈ a, isGuard c = true) (b : Bytes) :
    Guarded (a ++ b) := by
  rw [Guarded, List.takeWhile_append, if_neg]
  · exact ha
  · intro hall
    obtain ⟨c, hc, hguard⟩ := hmem
    rw [← (List.takeWhile_prefix _).eq_of_length hall] at hc
    have hnot := List.mem_takeWhile_imp hc
    rw [hguard] at hnot
    cases hnot

theorem guarded_cons {c : Byte} (hc : isGuard c = true) (s : Bytes) : Guarded (c :: s) := by
  rw [Guarded, List.takeWhile_cons_of_neg (by simp [hc])]
  exact List.not_mem_nil

theorem Guarded.behind {a b : Bytes} (ha : chr ':' ∉ a) (hb : Guarded b) : Guarded (a ++ b) := by
  intro hmem
  rw [List.takeWhile_append] at hmem
  split at hmem
  · rcases List.mem_append.1 hmem with h | h
    · exact ha h
    · exact hb h
  · exact ha ((List.takeWhile_prefix _).subset hmem)

theorem Guarded.append {a b : Bytes} (ha : Guarded a) (hb : Guarded b) : Guarded (a ++ b) := by
  by_cases hmem : ∃ c ∈ a, isGuard c = true
  · exact guarded_of_mem ha hmem b
  · refine hb.behind fun hcolon => ha ?_
    rw [List.takeWhile_eq_self_iff.2]
    · exact hcolon
    · intro c hc
      have hguard := fun h => hmem ⟨c, hc, h⟩
      simpa using hguard

theorem unguarded_of_blank {b : Bytes} (hb : Blank b) :
    ∀ c ∈ b, c ≠ chr ':' ∧ isGuard c = false := by
  have hall : ∀ c : Byte, isSpace c = true → c ≠ chr ':' ∧ isGuard c = false :=
    forall_byte (by decide +kernel)
  exact fun c hc => hall c (hb c hc)

theorem Guarded.trim {s : Bytes} (h : Guarded s) : Guarded (trim s) := by
  obtain ⟨a, b, hs, ha, -⟩ := exists_trim s
  rw [hs] at h
  exact (guarded_append (unguarded_of_blank ha)).1 (guarded_of_append h)

theorem settled_stripLabel {part : Bytes} (h : Settled part) (hkeeps : Lexer.Keeps {} part) :
    Settled (stripLabel part) := by
  obtain ⟨hnone, -⟩ | ⟨label, rest, rfl, -, hfind⟩ := find_cases part (chr ':')
  · rwa [stripLabel, hnone]
  · rw [stripLabel, hfind]
    dsimp only
    rw [List.take_left]
    split
    · exact h
    · rename_i hlabel
      rw [not_or, not_or] at hlabel
      have hrun := run_label (Lexer.keeps_append.1 hkeeps).1 hlabel.2.2 hlabel.2.1
      have hdrop : (label ++ chr ':' :: rest).drop (label.length + 1) = rest := by
        rw [← List.drop_drop, List.drop_left]
        rfl
      rw [hdrop, settled_trim]
      rw [Settled, Lexer.run_append, hrun] at h
      exact h

section

variable (icu : Converter)

/-- The members of a list without groups. -/
def parseMembers (part : Bytes) : List Mailbox :=
  (splitOutsideQuotes part (chr ',')).filterMap (parseMailbox icu)

/-- What a piece between two semicolons reads as. -/
def parseGroup (group : Bytes) : List Mailbox := parseMembers icu (stripLabel (trim group))

variable {icu}

@[simp] theorem parseMembers_nil : parseMembers icu [] = [] := rfl

/-- What stands without angle brackets and looks like an address is one. -/
theorem parseMailbox_bare {raw : Bytes} (hne : trim raw ≠ []) (hangle : chr '<' ∉ raw)
    (hbare : chr '@' ∈ trim raw ∨ chr ' ' ∉ trim raw ∧ (trim raw).head? ≠ some (chr '"') ∧
      (trim raw).take 2 ≠ str "=?") : parseMailbox icu raw = some ⟨[], trim raw⟩ := by
  rw [parseMailbox, if_neg hne, rfind_eq_none fun h => hangle (mem_of_mem_trim h), if_pos hbare]
  dsimp only
  rw [if_neg fun h => hne h.1, if_neg (Ne.symm hne)]

theorem parseMailbox_trim (raw : Bytes) : parseMailbox icu (trim raw) = parseMailbox icu raw := by
  rw [parseMailbox, parseMailbox, trim_trim]

theorem plain_of_blank {b : Bytes} (hb : Blank b) :
    ∀ c ∈ b, c ∉ marks ∧ c ≠ chr ',' ∧ c ≠ chr ';' := by
  have hall : ∀ c : Byte, isSpace c = true → c ∉ marks ∧ c ≠ chr ',' ∧ c ≠ chr ';' :=
    forall_byte (by decide +kernel)
  exact fun c hc => hall c (hb c hc)

theorem parseMembers_blank {b : Bytes} (hb : Blank b) (s : Bytes) :
    parseMembers icu (b ++ s) = parseMembers icu s := by
  have hplain := plain_of_blank hb
  rw [parseMembers, splitOutsideQuotes_append (settled_blank hb),
    (Passes.plain fun c hc => ⟨(hplain c hc).1, (hplain c hc).2.1⟩).split.1, glue, parseMembers]
  obtain ⟨p, ps, hps⟩ := List.exists_cons_of_ne_nil (splitOutsideQuotes_ne_nil s (chr ','))
  rw [hps, pushFront_cons, List.filterMap_cons, List.filterMap_cons, ← parseMailbox_trim,
    trim_blank_append hb, parseMailbox_trim]

theorem passes_blank {b : Bytes} (hb : Blank b) (sep : Byte) (l : Lexer) (hsep : ¬ Blank [sep]) :
    ∃ kept, Blank kept ∧ cut sep l b = [kept] := by
  induction b generalizing l with
  | nil => exact ⟨[], blank_nil, rfl⟩
  | cons c b ih =>
    rw [blank_cons] at hb
    have hcuts : l.cuts sep c = false := by
      refine decide_eq_false fun hcut => hsep ?_
      rw [← hcut.2.1, blank_cons]
      exact ⟨hb.1, blank_nil⟩
    obtain ⟨kept, hkept, hcut⟩ := ih hb.2 (l.next c)
    refine ⟨(if l.keeps c then [c] else []) ++ kept, blank_append.2 ⟨?_, hkept⟩, ?_⟩
    · split
      · exact blank_cons.2 ⟨hb.1, blank_nil⟩
      · exact blank_nil
    · rw [cut, hcuts, if_neg Bool.false_ne_true, hcut, pushFront_cons]

theorem filterMap_glue {ps : List Bytes} {b : Bytes} (hb : Blank b) (hps : ps ≠ []) :
    (glue ps [b]).filterMap (parseMailbox icu) = ps.filterMap (parseMailbox icu) := by
  induction ps with
  | nil => exact absurd rfl hps
  | cons p ps ih =>
    cases ps with
    | nil =>
      rw [glue, pushFront_cons, List.filterMap_cons, List.filterMap_cons, ← parseMailbox_trim,
        trim_append_blank hb, parseMailbox_trim]
    | cons p' ps =>
      rw [glue, List.filterMap_cons, List.filterMap_cons, ih (List.cons_ne_nil _ _)]

theorem parseMembers_trim (s : Bytes) : parseMembers icu (trim s) = parseMembers icu s := by
  obtain ⟨a, b, hs, ha, hb⟩ := exists_trim s
  conv_rhs => rw [hs]
  obtain ⟨kept, hkept, hcut⟩ := passes_blank hb (chr ',') (Lexer.run {} (a ++ trim s))
    (by decide +kernel)
  rw [← parseMembers_blank ha (trim s), parseMembers, parseMembers, splitOutsideQuotes_eq,
    splitOutsideQuotes_eq, cut_append _ _ (a ++ trim s), hcut, filterMap_glue hkept (cut_ne_nil _ _ _)]

/-- Where no label stands, the piece between two semicolons is a list of members. -/
theorem parseGroup_guarded {group : Bytes} (h : Guarded group) :
    parseGroup icu group = parseMembers icu group := by
  rw [parseGroup, stripLabel_guarded h.trim, parseMembers_trim]

/-- A label is taken off. -/
theorem parseGroup_label {label rest : Bytes} (h : ∀ c ∈ label, c ≠ chr ':' ∧ isGuard c = false) :
    parseGroup icu (label ++ chr ':' :: rest) = parseMembers icu rest := by
  have hsub (c : Byte) (hc : c ∈ label.dropWhile isSpace) : c ∈ label :=
    (List.dropWhile_suffix _).subset hc
  have hmem : chr ':' ∉ label.dropWhile isSpace := fun hc => (h _ (hsub _ hc)).1 rfl
  have hguard : ¬ (chr '@' ∈ label.dropWhile isSpace ∨ chr '<' ∈ label.dropWhile isSpace ∨
      chr '"' ∈ label.dropWhile isSpace) := by
    rintro (hc | hc | hc)
    · exact absurd (h _ (hsub _ hc)).2 (by decide)
    · exact absurd (h _ (hsub _ hc)).2 (by decide)
    · exact absurd (h _ (hsub _ hc)).2 (by decide)
  have hrest : (label.dropWhile isSpace ++ chr ':' :: trimRight rest).drop
      ((label.dropWhile isSpace).length + 1) = trimRight rest := by
    rw [← List.drop_drop, List.drop_left]
    rfl
  rw [parseGroup, trim_append_cons (by decide), stripLabel, find_of_append rfl hmem, Nat.zero_add]
  dsimp only
  rw [List.take_left, if_neg hguard, hrest, trim_trimRight, parseMembers_trim]

theorem parseMembers_comma {a : Bytes} (h : Settled a) (b : Bytes) :
    parseMembers icu (a ++ chr ',' :: b) = parseMembers icu a ++ parseMembers icu b := by
  rw [parseMembers, splitOutsideQuotes_sep h (by decide), List.filterMap_append]
  rfl

/-- The step of `flattenGroups`. -/
def addGroup (flattened group : Bytes) : Bytes :=
  let part := trim group
  if part = [] then flattened
  else
    let part := stripLabel part
    if part = [] then flattened
    else if flattened = [] then part
    else flattened ++ str ", " ++ part

theorem addGroup_spec {flattened group : Bytes} (hflattened : Settled flattened) :
    parseMembers icu (addGroup flattened group) =
        parseMembers icu flattened ++ parseGroup icu group ∧
      (Settled group → Lexer.Keeps {} group → Settled (addGroup flattened group)) := by
  have hblank : Blank [chr ' '] := by decide +kernel
  have hkeeps : Lexer.Keeps {} group → Lexer.Keeps {} (trim group) := by
    intro h
    obtain ⟨a, b, hs, ha, -⟩ := exists_trim group
    rw [hs, Lexer.keeps_append, Lexer.keeps_append, settled_blank ha] at h
    exact h.1.2
  have hstrip (hs : Settled group) (hk : Lexer.Keeps {} group) :
      Settled (stripLabel (trim group)) := settled_stripLabel (settled_trim.2 hs) (hkeeps hk)
  unfold addGroup parseGroup
  dsimp only
  by_cases hpart : trim group = []
  · rw [if_pos hpart, hpart, show stripLabel [] = [] from rfl, parseMembers_nil, List.append_nil]
    exact ⟨rfl, fun _ _ => hflattened⟩
  rw [if_neg hpart]
  by_cases hnil : stripLabel (trim group) = []
  · rw [if_pos hnil, hnil, parseMembers_nil, List.append_nil]
    exact ⟨rfl, fun _ _ => hflattened⟩
  rw [if_neg hnil]
  by_cases hfirst : flattened = []
  · rw [if_pos hfirst, hfirst]
    exact ⟨rfl, hstrip⟩
  · have hcomma : flattened ++ str ", " ++ stripLabel (trim group) =
        flattened ++ chr ',' :: ([chr ' '] ++ stripLabel (trim group)) := by
      rw [List.append_assoc]
      rfl
    have hsep : Settled (str ", ") := by decide
    rw [if_neg hfirst]
    refine ⟨?_, fun hs hk => (hflattened.append hsep).append (hstrip hs hk)⟩
    rw [hcomma, parseMembers_comma hflattened, parseMembers_blank hblank]

theorem parseMembers_groups {groups : List Bytes} {r : Lexer} (h : Between {} r groups)
    {flattened : Bytes} (hflattened : Settled flattened) :
    parseMembers icu (groups.foldl addGroup flattened) =
      parseMembers icu flattened ++ groups.flatMap (parseGroup icu) := by
  induction groups generalizing flattened with
  | nil => exact h.elim
  | cons group groups ih =>
    obtain ⟨hparse, hsettled⟩ := @addGroup_spec icu flattened group hflattened
    rw [List.foldl_cons, List.flatMap_cons]
    cases groups with
    | nil => rw [List.foldl_nil, List.flatMap_nil, List.append_nil, hparse]
    | cons group' groups =>
      rw [ih h.2 (hsettled h.1.2 h.1.1), hparse, List.append_assoc]

/-- The groups of an address list are read one by one. -/
theorem parseAddressList_eq (value : Bytes) : parseAddressList icu value =
    (splitOutsideQuotes value (chr ';')).flatMap (parseGroup icu) := by
  have h := @parseMembers_groups icu _ _ (splitOutsideQuotes_between value (chr ';')) [] rfl
  rwa [parseMembers_nil, List.nil_append] at h

end

end Mime
end Imap2Pst
