import Imap2Pst.Imap.Fetch

/-!
# Imap.Server

A server as a partial map from mailboxes and UIDs to octets, and the client over it.

* `Serves`      — a transport whose answers come from such a map.
* `Honest`      — a client whose fetches do.
* `ops_honest`  — `ImapClient` over the one is the other: requests, literals and the realignment
  by UID give nobody a body that is not theirs.
-/

namespace Imap2Pst
namespace Imap

open CxxStd

/-- The octets of each message a server has. -/
abbrev Mailboxes := (mailbox : Bytes) → (uid : UInt32) → Option Bytes

/-- A FETCH line about one message of the mailbox, its items in any order. -/
structure Carries (mail : Mailboxes) (mailbox : Bytes) (l : FetchLine) : Prop where
  wellFormed : l.WellFormed
  about : ∃ uid octets, mail mailbox uid = some octets ∧
    (∀ n, .uid n ∈ l.items → n = uid) ∧ ∀ o, .body o ∈ l.items → o = octets

/-- A single fetch gives the body, or an error when there is none. A batched fetch gives an error,
or lines about messages of the mailbox, as many and in such order as the server likes. -/
structure Serves {T : Type} (tr : TransportOps T) (mail : Mailboxes) : Prop where
  single : ∀ t mailbox uid, ∃ t',
    (∃ octets, mail mailbox uid = some octets ∧ tr.fetchBody t mailbox uid = (.ok octets, t')) ∨
      (mail mailbox uid = none ∧ ∃ what, tr.fetchBody t mailbox uid = (.error what, t'))
  batch : ∀ t mailbox uids, ∃ t',
    (∃ what, tr.command t mailbox (ImapClient.fetchBodiesCommand uids) = (.error what, t')) ∨
      ∃ lines, tr.command t mailbox (ImapClient.fetchBodiesCommand uids) =
          (.ok (fetchResponse lines), t') ∧
        (fetchResponse lines).length < 2 ^ 63 ∧ ∀ l ∈ lines, Carries mail mailbox l

/-- Every source in the result of a batched fetch is that of the message asked for. -/
def Faithful (mail : Mailboxes) (mailbox : Bytes) : List MessageMeta → List RawMessage → Prop :=
  List.Forall₂ fun m raw => raw.rfc822 ≠ [] →
    ∃ octets, mail mailbox m.uid = some octets ∧ raw = ImapClient.rawOf m octets

structure Honest {C : Type} (client : ClientOps C) (mail : Mailboxes) : Prop where
  single : ∀ c mailbox info, ∃ c',
    (∃ octets, mail mailbox info.uid = some octets ∧
        client.fetchMessage c mailbox info = (.ok (ImapClient.rawOf info octets), c')) ∨
      (mail mailbox info.uid = none ∧
        ∃ what, client.fetchMessage c mailbox info = (.throws (.imapError what), c'))
  batch : ∀ c mailbox metas, ∃ c',
    (∃ what, client.fetchMessages c mailbox metas = (.throws (.imapError what), c')) ∨
      ∃ got, client.fetchMessages c mailbox metas = (.ok got, c') ∧ Faithful mail mailbox metas got

/-! ## Lines and bodies -/

/-- What a line is said to be about comes from its items. -/
theorem bodyFold_mem (items : List FetchItem) :
    ∀ (n : Option UInt32) (octets : Option Bytes) (uid : UInt32) (o : Bytes),
      bodyFold (n, octets) items = (some uid, some o) →
      (n = some uid ∨ .uid uid ∈ items) ∧ (octets = some o ∨ .body o ∈ items) := by
  induction items with
  | nil =>
    intro n octets uid o h
    obtain ⟨rfl, rfl⟩ := Prod.mk.inj h
    exact ⟨.inl rfl, .inl rfl⟩
  | cons item rest ih =>
    intro n octets uid o h
    cases item with
    | uid m =>
      obtain ⟨hn, ho⟩ := ih _ _ _ _ h
      simp only [Option.some.injEq] at hn
      refine ⟨.inr ?_, by simpa using ho⟩
      rcases hn with rfl | hn
      · exact List.mem_cons_self
      · exact List.mem_cons_of_mem _ hn
    | body b =>
      obtain ⟨hn, ho⟩ := ih _ _ _ _ h
      simp only [Option.some.injEq] at ho
      refine ⟨by simpa using hn, .inr ?_⟩
      rcases ho with rfl | ho
      · exact List.mem_cons_self
      · exact List.mem_cons_of_mem _ ho
    | flags names =>
      obtain ⟨rfl, rfl⟩ := Prod.mk.inj h
      exact ⟨.inl rfl, .inl rfl⟩
    | internalDate v => simpa using ih _ _ _ _ h
    | size m => simpa using ih _ _ _ _ h

theorem Carries.bodyOf_eq {mail : Mailboxes} {mailbox : Bytes} {l : FetchLine}
    (h : Carries mail mailbox l) {body : FetchedBody} (hbody : bodyOf l = some body) :
    mail mailbox body.uid = some body.rfc822 := by
  obtain ⟨uid, octets, hmail, huid, hoctets⟩ := h.about
  unfold bodyOf at hbody
  split at hbody
  · rename_i n o hfold
    cases hbody
    obtain ⟨hn, ho⟩ := bodyFold_mem l.items none none n o hfold
    obtain rfl : n = uid := huid n (by simpa using hn)
    obtain rfl : o = octets := hoctets o (by simpa using ho)
    exact hmail
  · cases hbody

/-! ## Realignment -/

/-- What the map of a batched fetch holds: bodies of the mailbox, or what is left of them. -/
def Sound (mail : Mailboxes) (mailbox : Bytes) (map : UInt32 → Option Bytes) : Prop :=
  ∀ uid octets, map uid = some octets → octets ≠ [] → mail mailbox uid = some octets

theorem Sound.update {mail : Mailboxes} {mailbox : Bytes} {map : UInt32 → Option Bytes}
    (h : Sound mail mailbox map) {uid : UInt32} {value : Option Bytes}
    (hvalue : ∀ octets, value = some octets → octets ≠ [] → mail mailbox uid = some octets) :
    Sound mail mailbox (Function.update map uid value) := by
  intro n octets hn hne
  by_cases heq : n = uid
  · subst heq
    rw [Function.update_self] at hn
    exact hvalue octets hn hne
  · rw [Function.update_of_ne heq] at hn
    exact h n octets hn hne

theorem bodyMap_sound {mail : Mailboxes} {mailbox : Bytes} (bodies : List FetchedBody)
    (h : ∀ body ∈ bodies, mail mailbox body.uid = some body.rfc822) :
    Sound mail mailbox (ImapClient.bodyMap bodies) := by
  have step : ∀ (bodies : List FetchedBody) (map : UInt32 → Option Bytes),
      (∀ body ∈ bodies, mail mailbox body.uid = some body.rfc822) → Sound mail mailbox map →
      Sound mail mailbox
        (bodies.foldl (fun map b => Function.update map b.uid (some b.rfc822)) map) := by
    intro bodies
    induction bodies with
    | nil => exact fun map _ hmap => hmap
    | cons b bodies ih =>
      intro map hall hmap
      refine ih _ (fun body hb => hall body (List.mem_cons_of_mem _ hb)) (hmap.update ?_)
      rintro octets ⟨⟩ -
      exact hall b List.mem_cons_self
  exact step bodies _ h fun _ _ hnone => by cases hnone

theorem alignBodies_faithful {mail : Mailboxes} {mailbox : Bytes} :
    ∀ (metas : List MessageMeta) (map : UInt32 → Option Bytes), Sound mail mailbox map →
      Faithful mail mailbox metas (ImapClient.alignBodies map metas) := by
  intro metas
  induction metas with
  | nil => exact fun _ _ => .nil
  | cons m ms ih =>
    intro map hmap
    simp only [ImapClient.alignBodies]
    split
    · rename_i octets hoctets
      refine .cons (fun hne => ⟨octets, hmap m.uid octets hoctets hne, rfl⟩) (ih _ (hmap.update ?_))
      rintro _ ⟨⟩ hnil
      exact absurd rfl hnil
    · exact .cons (fun hne => absurd rfl hne) (ih map hmap)

/-- The client over a transport that serves a map serves it too. -/
theorem ops_honest {T : Type} (srt : StdSort) {tr : TransportOps T} {mail : Mailboxes}
    (h : Serves tr mail) : Honest (ImapClient.ops srt tr) mail where
  single t mailbox info := by
    obtain ⟨t', ⟨octets, hmail, hfetch⟩ | ⟨hmail, what, hfetch⟩⟩ := h.single t mailbox info.uid
    · refine ⟨t', .inl ⟨octets, hmail, ?_⟩⟩
      simp only [ImapClient.ops, ImapClient.fetchMessage, hfetch, ImapClient.request]
    · refine ⟨t', .inr ⟨hmail, what, ?_⟩⟩
      simp only [ImapClient.ops, ImapClient.fetchMessage, hfetch, ImapClient.request]
  batch t mailbox metas := by
    by_cases hnil : metas = []
    · subst hnil
      exact ⟨t, .inr ⟨[], rfl, .nil⟩⟩
    · obtain ⟨t', ⟨what, hcmd⟩ | ⟨lines, hcmd, hlen, hlines⟩⟩ :=
        h.batch t mailbox (ImapClient.sortedUids srt metas)
      · refine ⟨t', .inl ⟨what, ?_⟩⟩
        simp only [ImapClient.ops, ImapClient.fetchMessages, hnil, if_false, hcmd,
          ImapClient.request]
      · have hparse := parseFetchBodies_respond (fun l hl => (hlines l hl).wellFormed) hlen
        refine ⟨t', .inr ⟨_, ?_, alignBodies_faithful metas _
          (bodyMap_sound (lines.filterMap bodyOf) ?_)⟩⟩
        · simp only [ImapClient.ops, ImapClient.fetchMessages, hnil, if_false, hcmd,
            ImapClient.request, hparse, Reply.map_ok]
        · intro body hbody
          obtain ⟨l, hl, hof⟩ := List.mem_filterMap.1 hbody
          exact (hlines l hl).bodyOf_eq hof

end Imap
end Imap2Pst
