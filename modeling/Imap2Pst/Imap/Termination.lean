import Imap2Pst.Imap.Fetch
import Mathlib.Logic.Relation

/-!
# Imap.Termination

When the response parsers end. Their loops add lengths the server sent to a cursor, and the guard
in front of the addition is itself 64-bit arithmetic: a sum that wraps around passes it and takes
the cursor back.

* `Meets` — a literal the parsers meet on their way through a response.
* `Wraps` — the sum wraps around, and what is left of it passes the guard.
* `terminates_iff` — the parsers end, moving forward at each literal, when no sum wraps around.
-/

namespace Imap2Pst
namespace Imap

open CxxStd

/-! ## Sums -/

/-- The sum wraps around, and what is left of it passes the guard. -/
def Wraps (size i n : Nat) : Prop := wordSize ≤ i + n ∧ addSize i n ≤ size

theorem strtoul_lt (s : Bytes) : strtoul s < wordSize := by
  have hpos : 0 < wordSize := by decide
  have hvalue (v : Nat) (neg : Prop) [Decidable neg] : (if wordSize ≤ v then wordSize - 1
      else if neg then (wordSize - v) % wordSize else v) < wordSize := by
    split
    · omega
    · split
      · exact Nat.mod_lt _ hpos
      · omega
  exact hvalue _ _

/-- Without the wrap the guard keeps the whole literal inside. -/
theorem addSize_of_not_wraps {size i n : Nat} (h : ¬Wraps size i n) (hle : addSize i n ≤ size) :
    addSize i n = i + n := by
  refine addSize_of_lt (not_le.1 fun hwrap => h ⟨hwrap, hle⟩)

theorem addSize_lt_of_wraps {size i n : Nat} (h : Wraps size i n) (hn : n < wordSize) :
    addSize i n < i := by
  obtain ⟨hwrap, _⟩ := h
  unfold addSize wordSize at *
  omega

/-! ## Lines -/

/-- What stands between `i` and the end of its line. -/
def restOfLine (response : Bytes) (i : Nat) : Bytes :=
  stripCr (slice response i (lineEnd response i - i))

/-- Where the loops of `splitLines` stand. -/
inductive Scan where
  | lines (i : Nat)
  | literals (line : Bytes) (i : Nat)

/-- The inner loop ends at `line`. -/
def Ends (response line : Bytes) (i : Nat) : Prop :=
  ∀ n, trailingLiteral line = some n → response.length < addSize i n

/-- What the loops of `splitLines` come to. -/
inductive Reached (response : Bytes) : Scan → Prop
  | start : Reached response (.lines 0)
  | line {i : Nat} (h : Reached response (.lines i)) (hi : i < response.length) :
      Reached response (.literals (restOfLine response i) (lineEnd response i + 1))
  | literal {line : Bytes} {i n : Nat} (h : Reached response (.literals line i))
      (hn : trailingLiteral line = some n) (hguard : addSize i n ≤ response.length)
      (hin : i ≤ response.length) :
      Reached response
        (.literals (line ++ [13, 10] ++ slice response i n ++ restOfLine response (addSize i n))
          (lineEnd response (addSize i n) + 1))
  | done {line : Bytes} {i : Nat} (h : Reached response (.literals line i))
      (hend : Ends response line i) : Reached response (.lines i)

/-- A line that `splitLines` hands on. -/
def Delivered (response line : Bytes) : Prop :=
  ∃ i, Reached response (.literals line i) ∧ Ends response line i

theorem lineEnd_spec {response : Bytes} {i : Nat} (h : i ≤ response.length) :
    i ≤ lineEnd response i ∧ lineEnd response i ≤ response.length := by
  unfold lineEnd
  cases hfind : find response 10 i with
  | none => exact ⟨h, le_rfl⟩
  | some k =>
    obtain ⟨hle, hlt⟩ := find_eq_some hfind
    exact ⟨hle, hlt.le⟩

/-- No literal that the lines announce wraps around. -/
def LinesClear (response : Bytes) : Prop :=
  ∀ line i n, Reached response (.literals line i) → trailingLiteral line = some n →
    ¬Wraps response.length i n

/-- The inner loop: every pass moves the cursor behind the next line feed. -/
theorem attachLiterals_returns {response : Bytes} (hclear : LinesClear response) {fuel : Nat}
    {line : Bytes} {i : Nat} (hreach : Reached response (.literals line i))
    (hi : i ≤ response.length + 1) (hfuel : response.length + 1 < i + fuel) :
    ∃ line' i', attachLiterals response fuel line i = .ok (line', i') ∧ i ≤ i' ∧
      i' ≤ response.length + 1 ∧ Reached response (.literals line' i') ∧
      Ends response line' i' := by
  induction fuel generalizing line i with
  | zero => omega
  | succ fuel ih =>
    rw [attachLiterals]
    cases hn : trailingLiteral line with
    | none => exact ⟨line, i, rfl, le_rfl, hi, hreach, by simp [Ends, hn]⟩
    | some n =>
      by_cases hguard : response.length < addSize i n
      · refine ⟨line, i, if_pos hguard, le_rfl, hi, hreach, fun m hm => ?_⟩
        rw [hn] at hm
        cases hm
        exact hguard
      · have hsum := addSize_of_not_wraps (hclear line i n hreach hn) (not_lt.1 hguard)
        have hin : i ≤ response.length := by omega
        obtain ⟨hge, hle⟩ := lineEnd_spec (not_lt.1 hguard)
        obtain ⟨line', i', hrun, hi', hrest⟩ :=
          ih (.literal hreach hn (not_lt.1 hguard) hin) (by omega) (by omega)
        refine ⟨line', i', ?_, by omega, hrest⟩
        dsimp only
        rw [if_neg hguard, if_neg (not_lt.2 hin)]
        exact hrun

theorem splitLinesLoop_returns {response : Bytes} (hclear : LinesClear response) {fuel i : Nat}
    (hreach : Reached response (.lines i)) (hi : i ≤ response.length + 1)
    (hfuel : response.length + 1 < i + fuel) :
    ∃ lines, splitLinesLoop response fuel i = .ok lines ∧ ∀ l ∈ lines, Delivered response l := by
  induction fuel generalizing i with
  | zero => omega
  | succ fuel ih =>
    rw [splitLinesLoop]
    by_cases hmore : i < response.length
    · obtain ⟨hge, hle⟩ := lineEnd_spec hmore.le
      have hinner : response.length + 1 < lineEnd response i + 1 + lineFuel response := by
        unfold lineFuel
        omega
      obtain ⟨line, j, hrun, hj, hj', hline, hend⟩ :=
        attachLiterals_returns hclear (.line hreach hmore) (by omega) hinner
      obtain ⟨lines, hrest, hall⟩ := ih (.done hline hend) hj' (by omega)
      rw [if_pos hmore]
      refine ⟨line :: lines, ?_, ?_⟩
      · dsimp only
        rw [restOfLine] at hrun
        rw [hrun, Reply.bind_ok, hrest]
        rfl
      · intro l hl
        rcases List.mem_cons.1 hl with rfl | hl
        · exact ⟨j, hline, hend⟩
        · exact hall l hl
    · exact ⟨[], if_neg hmore, by simp⟩

/-! ## Strings -/

/-- Where the octets of a literal start: a line break behind the closing brace is skipped. -/
def literalStart (s : Bytes) (close : Nat) : Nat :=
  let start := close + 1
  let start := if (s.drop start).head? = some 13 then start + 1 else start
  if (s.drop start).head? = some 10 then start + 1 else start

/-- The literal under the cursor of `readAstring`: where it starts and its length. -/
def literalAt (s : Bytes) (i : Nat) : Option (Nat × Nat) :=
  match s.drop (skipSpace s i) with
  | [] => none
  | c :: t =>
    if c = 123 then
      (find s 125 (skipSpace s i)).map fun close => (literalStart s close, strtoul (cstr t))
    else none

theorem skipSpace_spec {s : Bytes} {i : Nat} :
    i ≤ skipSpace s i ∧ (i ≤ s.length → skipSpace s i ≤ s.length) := by
  have hlen := (List.takeWhile_sublist (l := s.drop i) isBlank).length_le
  rw [List.length_drop] at hlen
  unfold skipSpace
  omega

theorem lt_literalStart (s : Bytes) (close : Nat) : close < literalStart s close := by
  unfold literalStart
  dsimp only
  split <;> split <;> omega

theorem readQuoted_le (t : Bytes) : (readQuoted t).2 ≤ t.length := by
  fun_induction readQuoted t <;> simp_all

theorem readAstring_eq (s : Bytes) (i : Nat) : readAstring s i =
    match s.drop (skipSpace s i) with
    | [] => (none, skipSpace s i)
    | c :: t =>
      if c = 34 then (some (readQuoted t).1, skipSpace s i + 1 + (readQuoted t).2)
      else if c = 123 then
        match find s 125 (skipSpace s i) with
        | none => (none, skipSpace s i)
        | some close =>
          if s.length < addSize (literalStart s close) (strtoul (cstr t)) then
            (none, skipSpace s i)
          else (some (slice s (literalStart s close) (strtoul (cstr t))),
            addSize (literalStart s close) (strtoul (cstr t)))
      else if (c :: t).takeWhile isAtomChar = [] then (none, skipSpace s i)
      else (some ((c :: t).takeWhile isAtomChar),
        skipSpace s i + ((c :: t).takeWhile isAtomChar).length) := rfl

/-- A string that was read moves the cursor forward, unless its literal wraps around. -/
theorem readAstring_forward {s v : Bytes} {i j : Nat}
    (hclear : ∀ start n, literalAt s i = some (start, n) → ¬Wraps s.length start n)
    (h : readAstring s i = (some v, j)) : i < j ∧ j ≤ s.length := by
  obtain ⟨hskip, -⟩ := skipSpace_spec (s := s) (i := i)
  unfold literalAt at hclear
  rw [readAstring_eq] at h
  cases hdrop : s.drop (skipSpace s i) with
  | nil =>
    rw [hdrop] at h
    cases h
  | cons c t =>
    rw [hdrop] at h hclear
    dsimp only at h hclear
    have hlt := lt_length_of_drop hdrop
    have hlen := congrArg List.length hdrop
    rw [List.length_drop, List.length_cons] at hlen
    by_cases hquote : c = 34
    · rw [if_pos hquote] at h
      cases h
      have hle := readQuoted_le t
      omega
    rw [if_neg hquote] at h
    by_cases hbrace : c = 123
    · rw [if_pos hbrace] at h hclear
      cases hclose : find s 125 (skipSpace s i) with
      | none =>
        rw [hclose] at h
        cases h
      | some close =>
        rw [hclose] at h hclear
        obtain ⟨hge, _⟩ := find_eq_some hclose
        have hstart := lt_literalStart s close
        dsimp only at h
        by_cases hguard : s.length < addSize (literalStart s close) (strtoul (cstr t))
        · rw [if_pos hguard] at h
          cases h
        · rw [if_neg hguard] at h
          have hsum := addSize_of_not_wraps (hclear _ _ rfl) (not_lt.1 hguard)
          cases h
          omega
    · rw [if_neg hbrace] at h
      have hword := (List.takeWhile_sublist (l := c :: t) isAtomChar).length_le
      rw [List.length_cons] at hword
      by_cases hnone : (c :: t).takeWhile isAtomChar = []
      · rw [if_pos hnone] at h
        cases h
      · rw [if_neg hnone] at h
        have hpos := List.length_pos_iff.2 hnone
        cases h
        omega

/-- When nothing is read, only white space is skipped. -/
theorem readAstring_none {s : Bytes} {i j : Nat} (h : readAstring s i = (none, j)) :
    j = skipSpace s i := by
  rw [readAstring_eq] at h
  split at h
  · exact (Prod.mk.inj h).2.symm
  split at h
  · cases (Prod.mk.inj h).1
  split at h
  · split at h
    · exact (Prod.mk.inj h).2.symm
    · split at h
      · exact (Prod.mk.inj h).2.symm
      · cases (Prod.mk.inj h).1
  · split at h
    · exact (Prod.mk.inj h).2.symm
    · cases (Prod.mk.inj h).1

/-- Where the cursor is left, whether a string was read or not. -/
theorem readAstring_cursor {s : Bytes} {i : Nat} (hi : i ≤ s.length)
    (hclear : ∀ start n, literalAt s i = some (start, n) → ¬Wraps s.length start n) :
    i ≤ (readAstring s i).2 ∧ (readAstring s i).2 ≤ s.length := by
  cases hread : readAstring s i with
  | mk v j =>
    cases v with
    | none =>
      obtain ⟨hge, hle⟩ := skipSpace_spec (s := s) (i := i)
      rw [readAstring_none hread]
      exact ⟨hge, hle hi⟩
    | some v =>
      obtain ⟨hlt, hle⟩ := readAstring_forward hclear hread
      exact ⟨hlt.le, hle⟩

theorem skipSpace_skipSpace (s : Bytes) (i : Nat) :
    skipSpace s (skipSpace s i) = skipSpace s i := by
  have hsplit : s.drop i = (s.drop i).takeWhile isBlank ++ (s.drop i).dropWhile isBlank :=
    List.takeWhile_append_dropWhile.symm
  have hdrop : s.drop (skipSpace s i) = (s.drop i).dropWhile isBlank := drop_of_append hsplit
  have hnone : s.drop (skipSpace s i) = [] ++ (s.drop i).dropWhile isBlank := hdrop
  refine skipSpace_of_append hnone (by simp [blank]) fun c hc => ?_
  have hhead := List.head?_dropWhile_not isBlank (s.drop i)
  rw [hc] at hhead
  exact hhead

theorem readAstring_skipSpace (s : Bytes) (i : Nat) :
    readAstring s (skipSpace s i) = readAstring s i := by
  unfold readAstring
  rw [skipSpace_skipSpace]

/-! ## Items -/

/-- One pass of a loop over items: where it leaves the cursor, `none` when the loop ends. `after`
says where it is left behind a key. -/
def itemNext (after : Bytes → Nat → Option Nat) (line : Bytes) (i : Nat) : Option Nat :=
  match line.drop (skipSpace line i) with
  | [] => none
  | c :: _ =>
    if c = 40 ∨ c = 41 then some (skipSpace line i + 1)
    else
      match readAstring line i with
      | (none, _) => none
      | (some key, j) => after (lower key) j

/-- Behind a key of `parseFetchBodies`. -/
def bodyAfter (line k : Bytes) (j : Nat) : Option Nat :=
  if k = str "uid" ∨ k.take 5 = str "body[" ∨ k = str "rfc822" then some (readAstring line j).2
  else
    match readAstring line j with
    | (none, _) => none
    | (some _, j) => some j

/-- The keys behind which `parseFetchResponse` reads a string. -/
def MetaValue (k : Bytes) : Prop :=
  k = str "uid" ∨ k = str "rfc822.size" ∨ k = str "internaldate"

instance (k : Bytes) : Decidable (MetaValue k) := inferInstanceAs (Decidable (_ ∨ _))

/-- Behind a key of `parseFetchResponse`. -/
def metaAfter (line k : Bytes) (j : Nat) : Option Nat :=
  if MetaValue k then some (readAstring line j).2
  else if k = str "flags" then (find line 41 (skipSpace line j)).map (· + 1)
  else some j

/-- One pass of `bodyItems`, whatever it has found so far. -/
theorem bodyItems_pass (line : Bytes) (fuel i : Nat) (uid : Option UInt32)
    (body : Option Bytes) :
    match itemNext (bodyAfter line) line i with
    | none => bodyItems line (fuel + 1) i uid body = .ok (uid, body)
    | some j => ∃ uid' body', bodyItems line (fuel + 1) i uid body =
        bodyItems line fuel j uid' body' := by
  rw [itemNext, bodyItems]
  dsimp only
  cases hdrop : line.drop (skipSpace line i) with
  | nil => rfl
  | cons c t =>
    dsimp only
    by_cases hparen : c = 40 ∨ c = 41
    · rw [if_pos hparen, if_pos hparen]
      exact ⟨uid, body, rfl⟩
    rw [if_neg hparen, if_neg hparen, readAstring_skipSpace]
    cases hkey : readAstring line i with
    | mk v j =>
      cases v with
      | none => rfl
      | some key =>
        dsimp only [bodyAfter]
        by_cases huid : lower key = str "uid"
        · rw [if_pos (.inl huid), if_pos huid]
          cases hvalue : readAstring line j with
          | mk v k => cases v <;> exact ⟨_, _, rfl⟩
        by_cases hbody : (lower key).take 5 = str "body[" ∨ lower key = str "rfc822"
        · rw [if_pos (.inr hbody), if_neg huid, if_pos hbody]
          cases hvalue : readAstring line j with
          | mk v k => cases v <;> exact ⟨_, _, rfl⟩
        · rw [if_neg (not_or.2 ⟨huid, hbody⟩), if_neg huid, if_neg hbody]
          cases hvalue : readAstring line j with
          | mk v k =>
            cases v with
            | none => rfl
            | some v => exact ⟨_, _, rfl⟩

/-- One pass of `metaItems`, whatever it has found so far. -/
theorem metaItems_pass (line : Bytes) (fuel i : Nat) (seen : Bool) (info : MessageMeta) :
    match itemNext (metaAfter line) line i with
    | none => metaItems line (fuel + 1) i seen info = .ok (seen, info)
    | some j => ∃ seen' info', metaItems line (fuel + 1) i seen info =
        metaItems line fuel j seen' info' := by
  rw [itemNext, metaItems]
  dsimp only
  cases hdrop : line.drop (skipSpace line i) with
  | nil => rfl
  | cons c t =>
    dsimp only
    by_cases hparen : c = 40 ∨ c = 41
    · rw [if_pos hparen, if_pos hparen]
      exact ⟨seen, info, rfl⟩
    rw [if_neg hparen, if_neg hparen, readAstring_skipSpace]
    cases hkey : readAstring line i with
    | mk v j =>
      cases v with
      | none => rfl
      | some key =>
        dsimp only [metaAfter]
        by_cases huid : lower key = str "uid"
        · rw [if_pos (.inl huid), if_pos huid]
          cases hvalue : readAstring line j with
          | mk v k => cases v <;> exact ⟨_, _, rfl⟩
        by_cases hsize : lower key = str "rfc822.size"
        · rw [if_pos (.inr (.inl hsize)), if_neg huid, if_pos hsize]
          cases hvalue : readAstring line j with
          | mk v k => cases v <;> exact ⟨_, _, rfl⟩
        by_cases hdate : lower key = str "internaldate"
        · have hflags : lower key ≠ str "flags" := by
            rw [hdate]
            decide
          rw [if_pos (.inr (.inr hdate)), if_neg huid, if_neg hsize, if_neg hflags, if_pos hdate]
          cases hvalue : readAstring line j with
          | mk v k => cases v <;> exact ⟨_, _, rfl⟩
        have hnone : ¬MetaValue (lower key) := not_or.2 ⟨huid, not_or.2 ⟨hsize, hdate⟩⟩
        rw [if_neg hnone, if_neg huid, if_neg hsize]
        by_cases hflags : lower key = str "flags"
        · rw [if_pos hflags, if_pos hflags]
          cases hclose : find line 41 (skipSpace line j) with
          | none => rfl
          | some close => exact ⟨_, _, rfl⟩
        · rw [if_neg hflags, if_neg hflags, if_neg hdate]
          exact ⟨_, _, rfl⟩

/-- The cursors a loop over items comes to. -/
def CursorAt (after : Bytes → Nat → Option Nat) (line : Bytes) : Nat → Nat → Prop :=
  Relation.ReflTransGen fun i j => itemNext after line i = some j

/-- Where such a loop calls `readAstring`: at each key, and behind those that have a value. -/
inductive ItemRead (after : Bytes → Nat → Option Nat) (HasValue : Bytes → Prop) (line : Bytes)
    (start : Nat) : Nat → Prop
  | key {i : Nat} (h : CursorAt after line start i) : ItemRead after HasValue line start i
  | value {i j : Nat} {key : Bytes} (h : CursorAt after line start i)
      (hkey : readAstring line i = (some key, j)) (hvalue : HasValue (lower key)) :
      ItemRead after HasValue line start j

/-- No literal under the cursor wraps around. -/
def ClearAt (s : Bytes) (i : Nat) : Prop :=
  ∀ start n, literalAt s i = some (start, n) → ¬Wraps s.length start n

section

variable {after : Bytes → Nat → Option Nat} {line : Bytes} {start : Nat}

theorem itemNext_forward (HasValue : Bytes → Prop)
    (hafter : ∀ k j j', j ≤ line.length → (HasValue k → ClearAt line j) → after k j = some j' →
      j ≤ j' ∧ j' ≤ line.length)
    (hclear : ∀ r, ItemRead after HasValue line start r → ClearAt line r) {i j : Nat}
    (hi : CursorAt after line start i) (hnext : itemNext after line i = some j) :
    i < j ∧ j ≤ line.length := by
  obtain ⟨hskip, -⟩ := skipSpace_spec (s := line) (i := i)
  unfold itemNext at hnext
  cases hdrop : line.drop (skipSpace line i) with
  | nil =>
    rw [hdrop] at hnext
    cases hnext
  | cons c t =>
    rw [hdrop] at hnext
    dsimp only at hnext
    have hlt := lt_length_of_drop hdrop
    by_cases hparen : c = 40 ∨ c = 41
    · rw [if_pos hparen] at hnext
      cases hnext
      omega
    rw [if_neg hparen] at hnext
    cases hkey : readAstring line i with
    | mk v k =>
      rw [hkey] at hnext
      cases v with
      | none => cases hnext
      | some key =>
        obtain ⟨hik, hk⟩ := readAstring_forward (hclear i (.key hi)) hkey
        obtain ⟨hkj, hj⟩ := hafter (lower key) k j hk
          (fun hvalue => hclear k (.value hi hkey hvalue)) hnext
        exact ⟨hik.trans_le hkj, hj⟩

end

theorem bodyAfter_forward {line k : Bytes} {j j' : Nat} (hj : j ≤ line.length)
    (hclear : ClearAt line j) (h : bodyAfter line k j = some j') :
    j ≤ j' ∧ j' ≤ line.length := by
  obtain ⟨hge, hle⟩ := readAstring_cursor hj hclear
  unfold bodyAfter at h
  split at h
  · cases h
    exact ⟨hge, hle⟩
  · cases hread : readAstring line j with
    | mk v i =>
      rw [hread] at h hge hle
      cases v with
      | none => cases h
      | some v =>
        cases h
        exact ⟨hge, hle⟩

theorem metaAfter_forward {line k : Bytes} {j j' : Nat} (hj : j ≤ line.length)
    (hclear : MetaValue k → ClearAt line j) (h : metaAfter line k j = some j') :
    j ≤ j' ∧ j' ≤ line.length := by
  unfold metaAfter at h
  split at h
  · rename_i hvalue
    cases h
    exact readAstring_cursor hj (hclear hvalue)
  split at h
  · obtain ⟨close, hclose, rfl⟩ := Option.map_eq_some_iff.1 h
    obtain ⟨hskip, -⟩ := skipSpace_spec (s := line) (i := j)
    obtain ⟨hge, hlt⟩ := find_eq_some hclose
    omega
  · cases h
    exact ⟨le_rfl, hj⟩

theorem fetchItems_le {line : Bytes} {i : Nat} (h : fetchItems line = some i) :
    i ≤ line.length := by
  unfold fetchItems at h
  split at h
  · cases h
  · obtain ⟨k, hk, rfl⟩ := Option.map_eq_some_iff.1 h
    obtain ⟨_, hle, _⟩ := findSub_eq_some hk (by decide)
    rwa [lower_length] at hle

theorem parseBodyLine_returns {line : Bytes}
    (hclear : ∀ start r, fetchItems line = some start →
      ItemRead (bodyAfter line) (fun _ => True) line start r → ClearAt line r) :
    ∃ b, parseBodyLine line = .ok b := by
  unfold parseBodyLine
  cases hstart : fetchItems line with
  | none => exact ⟨none, rfl⟩
  | some start =>
    have hloop : ∃ r, bodyItems line (line.length + 2) start none none = .ok r := by
      refine Reply.loop_returns (fun fuel i s => bodyItems line fuel i s.1 s.2)
        (itemNext (bodyAfter line) line) (CursorAt (bodyAfter line) line start) line.length
        ?_ ?_ ?_ ((none, none) : Option UInt32 × Option Bytes) .refl (fetchItems_le hstart)
        (by omega : line.length < start + (line.length + 2))
      · intro fuel i s hnone
        have hpass := bodyItems_pass line fuel i s.1 s.2
        rw [hnone] at hpass
        exact ⟨_, hpass⟩
      · intro fuel i j s hnext
        have hpass := bodyItems_pass line fuel i s.1 s.2
        rw [hnext] at hpass
        obtain ⟨uid, body, hrun⟩ := hpass
        exact ⟨(uid, body), hrun⟩
      · intro i j hi hnext
        refine ⟨hi.tail hnext, itemNext_forward (fun _ => True) ?_
          (fun r => hclear start r hstart) hi hnext⟩
        intro k j j' hj hvalue
        exact bodyAfter_forward hj (hvalue trivial)
    obtain ⟨r, hrun⟩ := hloop
    dsimp only
    rw [hrun]
    exact ⟨_, rfl⟩

theorem parseMetaLine_returns {line : Bytes}
    (hclear : ∀ start r, fetchItems line = some start →
      ItemRead (metaAfter line) MetaValue line start r → ClearAt line r) :
    ∃ b, parseMetaLine line = .ok b := by
  unfold parseMetaLine
  cases hstart : fetchItems line with
  | none => exact ⟨none, rfl⟩
  | some start =>
    have hloop : ∃ r, metaItems line (line.length + 2) start false {} = .ok r := by
      refine Reply.loop_returns (fun fuel i s => metaItems line fuel i s.1 s.2)
        (itemNext (metaAfter line) line) (CursorAt (metaAfter line) line start) line.length
        ?_ ?_ ?_ ((false, {}) : Bool × MessageMeta) .refl (fetchItems_le hstart)
        (by omega : line.length < start + (line.length + 2))
      · intro fuel i s hnone
        have hpass := metaItems_pass line fuel i s.1 s.2
        rw [hnone] at hpass
        exact ⟨_, hpass⟩
      · intro fuel i j s hnext
        have hpass := metaItems_pass line fuel i s.1 s.2
        rw [hnext] at hpass
        obtain ⟨seen, info, hrun⟩ := hpass
        exact ⟨(seen, info), hrun⟩
      · intro i j hi hnext
        refine ⟨hi.tail hnext, itemNext_forward MetaValue ?_ (fun r => hclear start r hstart) hi
          hnext⟩
        intro k j j' hj hvalue
        exact metaAfter_forward hj hvalue
    obtain ⟨r, hrun⟩ := hloop
    dsimp only
    rw [hrun]
    exact ⟨_, rfl⟩

/-! ## Responses -/

/-- Cursor behind the attributes of a LIST line. -/
def listCursor (line : Bytes) : Option Nat :=
  if line.length < 2 ∨ line.head? ≠ some 42 then none
  else if lower (slice line (skipSpace line 1) 4) ≠ str "list" then none
  else
    let i := skipSpace line (skipSpace line 1 + 4)
    if (line.drop i).head? ≠ some 40 then none else (find line 41 i).map (· + 1)

/-- The cursors at which the parsers call `readAstring` on a line. -/
inductive StringRead (line : Bytes) : Nat → Prop
  | delimiter {i : Nat} (h : listCursor line = some i) : StringRead line i
  | folder {i j : Nat} {delim : Bytes} (h : listCursor line = some i)
      (hdelim : readAstring line i = (some delim, j)) : StringRead line j
  | info {start i : Nat} (h : fetchItems line = some start)
      (hread : ItemRead (metaAfter line) MetaValue line start i) : StringRead line i
  | body {start i : Nat} (h : fetchItems line = some start)
      (hread : ItemRead (bodyAfter line) (fun _ => True) line start i) : StringRead line i

/-- The literals the parsers meet: the text the cursor moves in, by its size, the cursor, and the
length it is about to be moved by. -/
inductive Meets (response : Bytes) : Nat → Nat → Nat → Prop
  | announced {line : Bytes} {i n : Nat} (h : Reached response (.literals line i))
      (hn : trailingLiteral line = some n) : Meets response response.length i n
  | string {line : Bytes} {i start n : Nat} (h : Delivered response line)
      (hread : StringRead line i) (hlit : literalAt line i = some (start, n)) :
      Meets response line.length start n

theorem Meets.lt {response : Bytes} {size i n : Nat} (h : Meets response size i n) :
    n < wordSize := by
  cases h with
  | announced h hn =>
    unfold trailingLiteral at hn
    split at hn
    · split at hn
      · cases hn
      · dsimp only at hn
        split at hn
        · cases hn
        · cases hn
          exact strtoul_lt _
    · cases hn
  | string h hread hlit =>
    unfold literalAt at hlit
    split at hlit
    · cases hlit
    · split at hlit
      · obtain ⟨close, _, heq⟩ := Option.map_eq_some_iff.1 hlit
        cases heq
        exact strtoul_lt _
      · cases hlit

/-- Every parser returns: none loops for ever, and none throws `std::out_of_range`. -/
structure ParsersReturn (response : Bytes) : Prop where
  lines : ∃ lines, splitLines response = .ok lines
  list : ∃ folders, parseListResponse response = .ok folders
  metas : ∃ metas, parseFetchResponse response = .ok metas
  bodies : ∃ bodies, parseFetchBodies response = .ok bodies

/-- A length that passes its guard takes the cursor forward (from `i`, inside the text, to
`i + n`); any other ends the handling of the literal. -/
def MovesForward (response : Bytes) : Prop :=
  ∀ size i n, Meets response size i n → addSize i n ≤ size → i ≤ addSize i n

theorem parsers_return_of_clear {response : Bytes}
    (h : ∀ size i n, Meets response size i n → ¬Wraps size i n) : ParsersReturn response := by
  have hlines : LinesClear response := fun line i n hreach hn => h _ i n (.announced hreach hn)
  have hfuel : response.length + 1 < 0 + lineFuel response := by
    unfold lineFuel
    omega
  obtain ⟨lines, hsplit, hall⟩ := splitLinesLoop_returns hlines .start (Nat.zero_le _) hfuel
  have hclear {line : Bytes} (hline : line ∈ lines) {i : Nat} (hread : StringRead line i) :
      ClearAt line i := fun start n hlit => h _ start n (.string (hall line hline) hread hlit)
  have hmetas : ∃ metas, Reply.mapM parseMetaLine lines = .ok metas :=
    Reply.mapM_returns fun line hline => parseMetaLine_returns fun start r hstart hread =>
      hclear hline (.info hstart hread)
  have hbodies : ∃ bodies, Reply.mapM parseBodyLine lines = .ok bodies :=
    Reply.mapM_returns fun line hline => parseBodyLine_returns fun start r hstart hread =>
      hclear hline (.body hstart hread)
  obtain ⟨metas, hmetas⟩ := hmetas
  obtain ⟨bodies, hbodies⟩ := hbodies
  have hsplit' : splitLines response = .ok lines := hsplit
  refine ⟨⟨lines, hsplit⟩, ⟨lines.filterMap parseListLine, ?_⟩, ⟨metas.filterMap id, ?_⟩,
    ⟨bodies.filterMap id, ?_⟩⟩
  · rw [parseListResponse, hsplit', Reply.map_ok]
  · rw [parseFetchResponse, hsplit', Reply.bind_ok, hmetas, Reply.map_ok]
  · rw [parseFetchBodies, hsplit', Reply.bind_ok, hbodies, Reply.map_ok]

/-- The parsers return, moving forward at each literal, exactly when no sum wraps around. -/
theorem parsers_return_iff {response : Bytes} :
    ParsersReturn response ∧ MovesForward response ↔
      ∀ size i n, Meets response size i n → ¬Wraps size i n := by
  constructor
  · rintro ⟨_, hforward⟩ size i n hmeets hwraps
    have hback := addSize_lt_of_wraps hwraps hmeets.lt
    have hle := hforward size i n hmeets hwraps.2
    omega
  · intro hclear
    refine ⟨parsers_return_of_clear hclear, fun size i n hmeets hguard => ?_⟩
    rw [addSize_of_not_wraps (hclear size i n hmeets) hguard]
    exact Nat.le_add_right i n

/-! ## A literal that takes the cursor back to the start -/

/-- Its 23 octets and the length they announce add up to `2 ^ 64`. -/
def backToStart : Bytes := str "{18446744073709551593}\n"

theorem backToStart_literal (before : Bytes) :
    trailingLiteral (before ++ str "{18446744073709551593}") = some 18446744073709551593 := by
  have hdecimal : decimal 18446744073709551593 = str "18446744073709551593" := by decide +kernel
  have h := trailingLiteral_announce before (n := 18446744073709551593) (by decide)
  rwa [hdecimal] at h

/-- However long it runs, the inner loop reads the line once more. -/
theorem attachLiterals_backToStart (fuel : Nat) (before : Bytes) :
    attachLiterals backToStart fuel (before ++ str "{18446744073709551593}") 23 = .hangs := by
  induction fuel generalizing before with
  | zero => rfl
  | succ fuel ih =>
    have hrest : slice backToStart 23 18446744073709551593 = [] := by
      rw [slice, List.drop_of_length_le (by decide), List.take_nil]
    have hend : lineEnd backToStart 0 = 22 := by decide +kernel
    have hline : stripCr (slice backToStart 0 22) = str "{18446744073709551593}" := by
      decide +kernel
    have hsum : addSize 23 18446744073709551593 = 0 := by decide
    have hlen : backToStart.length = 23 := by decide
    rw [attachLiterals, backToStart_literal]
    dsimp only
    rw [hsum, hlen, if_neg (by decide), if_neg (by decide), hrest, hend, hline]
    exact ih (before ++ str "{18446744073709551593}" ++ [13, 10] ++ [])

theorem backToStart_hangs :
    (∀ fuel, attachLiterals backToStart fuel (str "{18446744073709551593}") 23 = .hangs) ∧
      splitLines backToStart = .hangs ∧
      ¬(ParsersReturn backToStart ∧ MovesForward backToStart) := by
  have hinner (fuel : Nat) := attachLiterals_backToStart fuel []
  have hsplit : splitLines backToStart = .hangs := by
    have hlen : (0 : Nat) < backToStart.length := by decide
    have hend : lineEnd backToStart 0 = 22 := by decide +kernel
    have hline : stripCr (slice backToStart 0 (22 - 0)) = str "{18446744073709551593}" := by
      decide +kernel
    unfold splitLines
    have hfuel : lineFuel backToStart = 99 + 1 := by decide
    rw [hfuel, splitLinesLoop, if_pos hlen, hend]
    dsimp only
    rw [hline]
    exact congrArg (Reply.bind · _) (hinner _)
  refine ⟨hinner, hsplit, ?_⟩
  rintro ⟨⟨⟨lines, hlines⟩, _⟩, _⟩
  rw [hsplit] at hlines
  cases hlines

end Imap
end Imap2Pst
