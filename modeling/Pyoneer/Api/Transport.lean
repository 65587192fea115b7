/-
Pyoneer.Api.Transport — how the bytes of a request arrive.

The connection is a stream: successive `recv` calls return its bytes in
pieces of any length up to that of the buffer. `client_handle_fd` has a
loop around `recv`, but every path through its body ends in `break`, so
what the first `recv` returns is all that it looks at. The request is
handled as if it had arrived whole exactly if this makes no difference
to `json_parse_ex` (`sameOutcome_iff`): a text that goes on after a
value is either parsed to that value or not parsed at all.
-/
import Pyoneer.Api.Replies

namespace Pyoneer.Api

open Pyoneer.Lib Pyoneer.Shared Pyoneer.Blueprint Pyoneer.Runtime

/-- The bytes of a connection. -/
def wholeText (chunks : List Received) : Bytes := chunks.flatMap fun text => text.1

theorem wholeText_cons (text : Received) (chunks : List Received) :
    wholeText (text :: chunks) = text.1 ++ wholeText chunks := rfl

/-- The part that `client_handle_fd` looks at. -/
def lookedAt : List Received → Option Received
  | [] => none
  | text :: _ => some text

/-- What the first `recv` returns if everything has arrived. -/
def atOnce (chunks : List Received) : List Received :=
  if h : 0 < (wholeText chunks).length then
    [⟨(wholeText chunks).take bufLen, by
      rw [List.length_take]
      exact ⟨Nat.lt_min.mpr ⟨by decide, h⟩, Nat.min_le_left ..⟩⟩]
  else []

/-! ## Decisions -/

theorem clientDecide_of_parse_eq {a b : Bytes} (h : jsonParse a = jsonParse b)
    (token : Option Bytes) (m : Memory) : clientDecide token m a = clientDecide token m b := by
  unfold clientDecide
  rw [h]

theorem clientDecide_number {a : Bytes} {v : JsonValue} (h : jsonParse a = some v)
    (hv : v.isNumber = true) (token : Option Bytes) {m : Memory} (hresp : m.resp = true)
    (hparse : m.parse = true) : clientDecide token m a = .error .jsonType := by
  unfold clientDecide
  rw [if_neg (by simp [hresp]), if_neg (by simp [hparse]), h]
  cases v with
  | integer n | double text => rfl
  | _ => cases hv

/-- A text and one of its beginnings are handled alike, if both are
parsed or neither is. -/
theorem clientDecide_append {a b : Bytes} (h : jsonParse a = none ↔ jsonParse (a ++ b) = none)
    (token : Option Bytes) (m : Memory) :
    clientDecide token m a = clientDecide token m (a ++ b) := by
  cases ha : jsonParse a with
  | none => exact clientDecide_of_parse_eq (ha.trans (h.mp ha).symm) token m
  | some v =>
    obtain ⟨v', hab⟩ : ∃ v', jsonParse (a ++ b) = some v' := by
      rw [← Option.ne_none_iff_exists', Ne, ← h, ha]
      simp
    rcases jsonParse_append ha hab with rfl | ⟨hv, hv'⟩
    · exact clientDecide_of_parse_eq (ha.trans hab.symm) token m
    · cases hresp : m.resp with
      | false => simp [clientDecide, hresp]
      | true =>
        cases hparse : m.parse with
        | false => simp [clientDecide, hresp, hparse]
        | true =>
          rw [clientDecide_number ha hv token hresp hparse,
            clientDecide_number hab hv' token hresp hparse]

/-- Only a text that is not parsed is answered as one. -/
theorem clientDecide_jsonParse_iff (token : Option Bytes) (text : Bytes) :
    clientDecide token .enough text = .error .jsonParse ↔ jsonParse text = none := by
  simp only [clientDecide, Memory.enough, Bool.true_eq_false, if_false]
  constructor
  · intro h
    split at h
    · assumption
    · split at h
      · split at h
        · split at h
          · cases h
          · exact absurd h (Handler.runCommand_ne (by simp) (by simp) (by simp))
        · cases h
      · cases h
    · cases h
  · intro h
    rw [h]

namespace Handler

/-- The connection is handled to its end, from `s` to `s'` with the
steps `h'`. -/
def Outcome (cfg : Config) (s : Handler) (chunks : List Received) (m : Memory)
    (h' : History Handler Label) (s' : Handler) : Prop :=
  ∃ text s₁, lookedAt chunks = some text ∧ s.step cfg (.recv text m) = some s₁ ∧
    Run (step cfg) sameRequest s₁ h' s' ∧ Finished s'

/-- From every state that the server can reach, the two connections have
the same steps, effects and replies. -/
def SameOutcome (cfg : Config) (a b : List Received) : Prop :=
  ∀ n h s m, Run (step cfg) always (create n) h s →
    ∀ h' s', Outcome cfg s a m h' s' ↔ Outcome cfg s b m h' s'

theorem step_recv_eq {cfg : Config} {a b : Received}
    (h : ∀ m, clientDecide cfg.token m a.1 = clientDecide cfg.token m b.1) (s : Handler)
    (m : Memory) : s.step cfg (.recv a m) = s.step cfg (.recv b m) := by
  simp only [step, request, h]

theorem sameOutcome_of_decide {cfg : Config} {a b : List Received} {c d : Received}
    (ha : lookedAt a = some c) (hb : lookedAt b = some d)
    (h : ∀ m, clientDecide cfg.token m c.1 = clientDecide cfg.token m d.1) :
    SameOutcome cfg a b := by
  intro n hist s m _ h' s'
  simp only [Outcome, ha, hb, Option.some.injEq]
  constructor
  · rintro ⟨_, s₁, rfl, hs, hrest⟩
    exact ⟨d, s₁, rfl, step_recv_eq h s m ▸ hs, hrest⟩
  · rintro ⟨_, s₁, rfl, hs, hrest⟩
    exact ⟨c, s₁, rfl, (step_recv_eq h s m).symm ▸ hs, hrest⟩

theorem sendResp_errorResp_injective {e e' : ApiErr}
    (h : sendResp (errorResp e) = sendResp (errorResp e')) : e = e' := by
  revert h
  cases e <;> cases e' <;> decide

/-- The answer to a text that is not parsed is like no other. -/
theorem request_jsonParse {cfg : Config} {s : Handler} {text : Received} {s₁ : Handler}
    (hs : s.request cfg text .enough = some s₁)
    (hsent : s₁.pc = .sent (sendResp (errorResp .jsonParse))) : jsonParse text.1 = none := by
  rw [← clientDecide_jsonParse_iff cfg.token]
  rcases request_cases hs with ⟨hd, _⟩ | ⟨e, hd, rfl⟩ | ⟨r, clients, _, rfl⟩
  · exact absurd hd (clientDecide_ne_noResponse rfl)
  · have he : sendResp (errorResp e) = sendResp (errorResp .jsonParse) := by
      simpa using hsent
    rw [hd, sendResp_errorResp_injective he]
  · cases hsent

theorem parse_of_sameOutcome {cfg : Config} {a b : List Received} {c d : Received}
    (ha : lookedAt a = some c) (hb : lookedAt b = some d) (h : SameOutcome cfg a b)
    (hc : jsonParse c.1 = none) : jsonParse d.1 = none := by
  have hstep : (create 0).step cfg (.recv c .enough)
      = some { create 0 with pc := .sent (sendResp (errorResp .jsonParse)) } := by
    have hd := (clientDecide_jsonParse_iff cfg.token c.1).mpr hc
    simp [step, create, request, hd]
  have hout := (h 0 [] (create 0) .enough .nil [] _).mp ⟨c, _, ha, hstep, .nil, by simp [Finished]⟩
  obtain ⟨_, s₁, hd, hs, hr, _⟩ := hout
  rw [hb] at hd
  cases hd
  cases hr
  exact request_jsonParse (s := create 0) hs rfl

theorem SameOutcome.symm {cfg : Config} {a b : List Received} (h : SameOutcome cfg a b) :
    SameOutcome cfg b a := fun n hist s m hr h' s' => (h n hist s m hr h' s').symm

/-- A connection is handled as if it had arrived whole exactly if
`json_parse_ex` accepts what the first `recv` returned and what it would
have returned then, or neither. -/
theorem sameOutcome_iff (cfg : Config) (chunks : List Received) :
    SameOutcome cfg chunks (atOnce chunks) ↔
      ∀ text, lookedAt chunks = some text →
        (jsonParse text.1 = none ↔ jsonParse ((wholeText chunks).take bufLen) = none) := by
  cases chunks with
  | nil =>
    have hnone : atOnce [] = [] := rfl
    rw [hnone]
    exact iff_of_true (fun n h s m _ h' s' => Iff.rfl) (by simp [lookedAt])
  | cons text rest =>
    have hsplit : (wholeText (text :: rest)).take bufLen
        = text.1 ++ (wholeText rest).take (bufLen - text.1.length) := by
      rw [wholeText_cons, List.take_append, List.take_of_length_le text.2.2]
    obtain ⟨whole, honce, hwhole⟩ : ∃ whole : Received, lookedAt (atOnce (text :: rest)) = some whole ∧
        whole.1 = (wholeText (text :: rest)).take bufLen := by
      have hpos : 0 < (wholeText (text :: rest)).length := by
        have htext := text.2.1
        rw [wholeText_cons, List.length_append]
        omega
      simp only [atOnce, dif_pos hpos, lookedAt]
      exact ⟨_, rfl, rfl⟩
    simp only [lookedAt, Option.some.injEq, forall_eq']
    rw [← hwhole]
    constructor
    · intro h
      exact ⟨parse_of_sameOutcome rfl honce h, parse_of_sameOutcome honce rfl h.symm⟩
    · intro h
      refine sameOutcome_of_decide rfl honce fun m => ?_
      rw [hwhole, hsplit] at h ⊢
      exact clientDecide_append h cfg.token m

/-- The request for the status, cut in two. -/
def cutStatusText : List Received :=
  [⟨statusText.1.take 20, by decide⟩, ⟨statusText.1.drop 20, by decide⟩]

/-- The first half is answered as a text that cannot be parsed. -/
theorem cutStatusText_outcome : wholeText cutStatusText = statusText.1 ∧
    ¬ SameOutcome someServer cutStatusText (atOnce cutStatusText) := by
  refine ⟨by decide, fun h => ?_⟩
  have hcut : jsonParse (statusText.1.take 20) = none := rfl
  have hwhole := parse_of_sameOutcome (c := ⟨statusText.1.take 20, by decide⟩)
    (d := ⟨statusText.1, by decide⟩) rfl rfl h hcut
  cases hwhole

end Handler

end Pyoneer.Api
