import Mathlib.Tactic

/-! Buffered channels. What was sent can be received in order, also when the
channel has been closed since; sending on a closed channel and closing it again
are errors. -/

namespace Mdencode.Channel

/-- A channel with room for `cap` messages. -/
structure Chan (α : Type*) where
  cap : ℕ
  queue : List α
  closed : Bool

inductive SendResult (α : Type*)
  | blocked
  | panic
  | sent (c : Chan α)

inductive ReceiveResult (α : Type*)
  | blocked
  | ended
  | received (message : α) (c : Chan α)

namespace Chan

variable {α : Type*}

def make (cap : ℕ) : Chan α where
  cap := cap
  queue := []
  closed := false

def send (message : α) (c : Chan α) : SendResult α :=
  if c.closed then .panic
  else if c.queue.length < c.cap then .sent { c with queue := c.queue ++ [message] }
  else .blocked

def receive (c : Chan α) : ReceiveResult α :=
  match c.queue with
  | message :: queue => .received message { c with queue }
  | [] => if c.closed then .ended else .blocked

/-- `none` when the channel is closed already. -/
def close (c : Chan α) : Option (Chan α) :=
  if c.closed then none else some { c with closed := true }

theorem send_eq_sent {message : α} {c c' : Chan α} (h : c.send message = .sent c') :
    c.closed = false ∧ c' = { c with queue := c.queue ++ [message] } := by
  rw [send] at h
  split_ifs at h with hclosed hroom
  exact ⟨by simpa using hclosed, (SendResult.sent.inj h).symm⟩

theorem send_eq_panic {message : α} {c : Chan α} (h : c.send message = .panic) :
    c.closed = true := by
  rw [send] at h
  split_ifs at h with hclosed
  exact hclosed

theorem send_eq_blocked {message : α} {c : Chan α} (h : c.send message = .blocked) :
    c.cap ≤ c.queue.length := by
  rw [send] at h
  split_ifs at h with hclosed hroom
  exact not_lt.mp hroom

theorem receive_eq_received {message : α} {c c' : Chan α} (h : c.receive = .received message c') :
    c.queue = message :: c'.queue ∧ c' = { c with queue := c'.queue } := by
  rw [receive] at h
  split at h
  · rename_i m queue hqueue
    obtain ⟨rfl, rfl⟩ := ReceiveResult.received.inj h
    exact ⟨hqueue, rfl⟩
  · split_ifs at h

theorem receive_eq_ended {c : Chan α} (h : c.receive = .ended) :
    c.queue = [] ∧ c.closed = true := by
  rw [receive] at h
  split at h
  · cases h
  · rename_i hqueue
    split_ifs at h with hclosed
    exact ⟨hqueue, hclosed⟩

theorem receive_eq_blocked {c : Chan α} (h : c.receive = .blocked) :
    c.queue = [] ∧ c.closed = false := by
  rw [receive] at h
  split at h
  · cases h
  · rename_i hqueue
    split_ifs at h with hclosed
    exact ⟨hqueue, by simpa using hclosed⟩

end Chan

/-! Senders that end with a last word, and a receiver that counts the last
words. When it has counted one for each sender nothing is left in the channel,
and nothing is going to be sent. -/

/-- `received` last words have been taken out by now and `done` of the `total`
senders are through. Whatever else is in the channel comes before the last word
of its sender. -/
structure Counted {α : Type*} (isLast : α → Bool) (received done total : ℕ) (queue : List α) :
    Prop where
  tally : received + queue.countP isLast = done
  bound : done ≤ total
  early : ∀ before message rest, queue = before ++ message :: rest → isLast message = false →
    received + before.countP isLast < total

namespace Counted

variable {α : Type*} {isLast : α → Bool} {received done total : ℕ} {queue : List α} {message : α}

theorem start (isLast : α → Bool) (total : ℕ) : Counted isLast 0 0 total [] where
  tally := rfl
  bound := Nat.zero_le total
  early before message rest h := by simp at h

/-- What was in the channel stays early, and so does what is sent by a sender
that is not through. -/
theorem early_append (h : Counted isLast received done total queue) (hdone : done < total) :
    ∀ before m rest, queue ++ [message] = before ++ m :: rest → isLast m = false →
      received + before.countP isLast < total := by
  intro before m rest hqueue hm
  rcases rest.eq_nil_or_concat with rfl | ⟨rest, last, rfl⟩
  · obtain ⟨rfl, -⟩ := List.append_inj' hqueue rfl
    rw [h.tally]
    exact hdone
  · rw [List.concat_eq_append, ← List.cons_append, ← List.append_assoc] at hqueue
    exact h.early before m rest (List.append_inj' hqueue rfl).1 hm

theorem send_word (h : Counted isLast received done total queue) (hdone : done < total)
    (hword : isLast message = false) :
    Counted isLast received done total (queue ++ [message]) where
  tally := by
    rw [List.countP_append, ← h.tally]
    simp [hword]
  bound := h.bound
  early := h.early_append hdone

theorem send_last (h : Counted isLast received done total queue) (hdone : done < total)
    (hlast : isLast message = true) :
    Counted isLast received (done + 1) total (queue ++ [message]) where
  tally := by
    rw [List.countP_append, ← h.tally]
    simp [hlast, Nat.add_assoc]
  bound := hdone
  early := h.early_append hdone

theorem receive_last (h : Counted isLast received done total (message :: queue))
    (hlast : isLast message = true) : Counted isLast (received + 1) done total queue where
  tally := by
    rw [← h.tally, List.countP_cons_of_pos hlast]
    omega
  bound := h.bound
  early before m rest hqueue hm := by
    have := h.early (message :: before) m rest (by rw [hqueue, List.cons_append]) hm
    rw [List.countP_cons_of_pos hlast] at this
    omega

theorem receive_word (h : Counted isLast received done total (message :: queue))
    (hword : isLast message = false) : Counted isLast received done total queue where
  tally := by rw [← h.tally, List.countP_cons_of_neg (by simp [hword])]
  bound := h.bound
  early before m rest hqueue hm := by
    have := h.early (message :: before) m rest (by rw [hqueue, List.cons_append]) hm
    rwa [List.countP_cons_of_neg (by simp [hword])] at this

/-- The receiver has counted everybody. -/
theorem all_received (h : Counted isLast received done total queue) (htotal : total ≤ received) :
    queue = [] ∧ done = total := by
  have htally := h.tally
  have hbound := h.bound
  refine ⟨?_, by omega⟩
  cases queue with
  | nil => rfl
  | cons message queue =>
    cases hm : isLast message with
    | true =>
      rw [List.countP_cons_of_pos hm] at htally
      omega
    | false =>
      have := h.early [] message queue rfl hm
      omega

/-- Nothing to receive, and not everybody counted. -/
theorem not_through (h : Counted isLast received done total []) (hreceived : received < total) :
    done < total := by
  have := h.tally
  rw [List.countP_nil] at this
  omega

end Counted

end Mdencode.Channel
