import Agentihooks.Messages.Theorems.Delivery

-- What holds of every run of the bus.

namespace Messages

variable {clock : Clock} {window : ℕ} {hash : String → String → String} {setup : Reader → Setup}

namespace Bus

variable {s t : Bus} {r q : Reader} {i j : ℕ} {mark : Mark} {p : Pending} {m : Message}

-- The events a reader has to deliver, of those its source accepted.
def accepts (setup : Reader → Setup) (s : Bus) : Reader → List Envelope
  | .queue name            => (s.entries (.queue name)).map Prod.snd
  | r@(.consumer feed _) =>
    ((s.entries (.feed feed)).filter fun e => subjectMatches (setup r).subject e.1).map Prod.snd

def events (s : Bus) (r : Reader) : List Envelope :=
  (List.range (s.pending r).size).map fun i => (s.message r i).event

-- Each accepted event is a message of the reader or waits to be read, in the order of acceptance.
structure Complete (setup : Reader → Setup) (s : Bus) (r : Reader) : Prop where
  cursor : (s.pending r).cursor ≤ (s.entries r.source).length
  events : s.events r ++ s.unread setup r = s.accepts setup r

theorem Complete.congr (h : Complete setup s r) (he : t.entries r.source = s.entries r.source)
    (hs : (t.pending r).size = (s.pending r).size) (hc : (t.pending r).cursor = (s.pending r).cursor)
    (hm : ∀ i, (t.message r i).event = (s.message r i).event) : Complete setup t r := by
  constructor
  case cursor =>
    rw [hc, he]
    exact h.cursor
  case events =>
    have hev : t.events r = s.events r := by simp only [Bus.events, hs, hm]
    have hu : t.unread setup r = s.unread setup r := by
      cases r <;> simp only [unread]
      simp only [Reader.source] at he
      rw [hc, he]
    have ha : t.accepts setup r = s.accepts setup r := by
      cases r <;> simp only [accepts, Reader.source] at he ⊢ <;> rw [he]
    rw [hev, hu, ha]
    exact h.events

-- Acceptances of one id by one source are a window apart, and each that a new one could come too close to is seen.
structure Deduped (clock : Clock) (window : ℕ) (s : Bus) : Prop where
  apart : s.accepted.Pairwise fun a b => a.1 = b.1 → a.2.1 = b.2.1 → a.2.2 + (window : ℤ) ≤ b.2.2
  seen  : ∀ a ∈ s.accepted, (∃ time, s.seen a.1 a.2.1 = some time ∧ a.2.2 ≤ time) ∨
    a.2.2 + window ≤ clock.reading s.reads

theorem Deduped.congr (h : Deduped clock window s) (ha : t.accepted = s.accepted) (hs : t.seen = s.seen)
    (hr : s.reads ≤ t.reads) : Deduped clock window t := by
  constructor
  case apart => rw [ha]; exact h.apart
  case seen =>
    intro a hm
    rw [ha] at hm
    rw [hs]
    exact (h.seen a hm).imp_right fun hle => hle.trans (clock.mono hr)

end Bus
end Messages
