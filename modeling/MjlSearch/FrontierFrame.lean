/-
What the frontier's calls leave alone.

* `popReady_frame` — a pop, whatever comes of it, only removes entries;
* `push_frame`, `push_error` — a push keeps the cached rules and the time each host
  is next allowed at, and a failed one keeps the whole database;
* `deferHost_nextAllowed` — deferring a host sets its time, and no other host's.
-/
import MjlSearch.FrontierQueue

open Text Bytes CrawlDb Frontier

namespace FrontierQueue

variable {urls : UrlCrate} {codecs : FrontierCodecs}

/-- Entries may be gone, and the counts may have changed. -/
structure Popped (F F' : Frontier) : Prop where
  pending : ∀ e ∈ F'.db.pending.entries, e ∈ F.db.pending.entries
  hosts : F'.db.hosts = F.db.hosts
  robots : F'.db.robots = F.db.robots
  sequence : F'.sequence = F.sequence
  persisted : F'.db.readCounter metaFrontierSeq = F.db.readCounter metaFrontierSeq

theorem Popped.refl (F : Frontier) : Popped F F := ⟨fun _ he => he, rfl, rfl, rfl, rfl⟩

theorem Popped.trans {F G H : Frontier} (h : Popped F G) (h' : Popped G H) : Popped F H :=
  ⟨fun e he => h.pending e (h'.pending e he), h'.hosts.trans h.hosts, h'.robots.trans h.robots,
    h'.sequence.trans h.sequence, h'.persisted.trans h.persisted⟩

theorem forget_popped {faults : Faults} {turn : ℕ} {F F' : Frontier} {key : Key}
    {result : Except CrawlError Unit} (h : forget faults turn F key = (result, F')) :
    Popped F F' := by
  cases result with
  | error e =>
    rw [forget_error h]
    exact ⟨fun _ he => he, rfl, rfl, rfl, rfl⟩
  | ok u =>
    rw [forget_ok h]
    refine ⟨fun e he => (Store.mem_delete.mp he).1, rfl, rfl, rfl, ?_⟩
    exact readCounter_writeCounter_of_ne _ _ metaFrontierSeq_ne_pending

/-- **A pop, whatever comes of it, only removes entries.** -/
theorem popReady_frame {faults : Faults} {nowMs : ℤ} {maxHostsPerCall : ℕ} {skip : Str → Bool}
    {F F' : Frontier} {result : Except CrawlError (Option CrawlJob)}
    (h : popReady codecs faults F nowMs maxHostsPerCall skip = some (result, F')) :
    Popped F F' := by
  rw [popReady] at h
  split at h
  · cases h
    exact Popped.refl _
  · have hforget : ∀ turn (G G' : Frontier) (e : Key × Value), e ∈ G.db.pending.entries →
        Popped F G → forget faults turn G e.1 = (.ok (), G') → Popped F G' :=
      fun _ _ _ _ _ hG hcall => hG.trans (forget_popped hcall)
    rcases scan_keeps hforget h (Popped.refl F) with hkept | ⟨_, _, _, _, _, hG, hcall⟩
    · exact hkept
    · exact hG.trans (forget_popped hcall)

theorem Popped.wf {F F' : Frontier} (h : Popped F F') (hF : Wf urls codecs F) :
    Wf urls codecs F' :=
  hF.of_subset h.pending h.sequence h.persisted

theorem Popped.nextAllowed {F F' : Frontier} (h : Popped F F') (host : Str) :
    nextAllowedAtMs codecs F' host = nextAllowedAtMs codecs F host := by
  rw [nextAllowedAtMs, nextAllowedAtMs, h.hosts]

/-- A failed push keeps the database. -/
theorem push_error {faults : Faults} {F F' : Frontier} {job : CrawlJob} {e : CrawlError}
    (h : push urls codecs faults F job = (.error e, F')) : F'.db = F.db := by
  rw [push] at h
  split at h
  · cases h
    rfl
  · split at h
    · cases h
      rfl
    · dsimp only at h
      split at h
      · split at h
        · cases h
          rfl
        · cases h
      · cases h
        rfl

/-- A successful push keeps the cached rules, and the time each host is next allowed
at: a host it makes known is allowed at once, as it was before. -/
theorem push_frame {faults : Faults} {F F' : Frontier} {job : CrawlJob}
    (h : push urls codecs faults F job = (.ok (), F')) :
    F'.db.robots = F.db.robots ∧
      ∀ host, nextAllowedAtMs codecs F' host = nextAllowedAtMs codecs F host := by
  rw [push] at h
  split at h
  · cases h
  · rename_i host hhost
    split at h
    · cases h
    · rename_i known hknown
      dsimp only at h
      split at h
      · split at h
        · cases h
        · rename_i db hbatch
          cases h
          obtain ⟨_, _, _, hrobots, _, hhosts⟩ := pushBatch_ok hbatch
          refine ⟨hrobots, fun a => ?_⟩
          rw [nextAllowedAtMs, nextAllowedAtMs]
          cases known with
          | some state =>
            have hsame : db.hosts = F.db.hosts := by simpa [advance] using hhosts
            rw [hsame]
          | none =>
            obtain ⟨bytes, hbytes, hput⟩ : ∃ bytes, codecs.hostState.encode default = some bytes ∧
                db.hosts = F.db.hosts.put (utf8 host) bytes := by
              simpa [advance] using hhosts
            rw [hput]
            by_cases ha : a = host
            · subst ha
              have hnext := hostState_ok hknown
              rw [nextAllowedAtMs] at hnext
              rw [Store.get_put_self, Option.bind_some, codecs.hostState.decode_encode hbytes,
                ← hnext]
              rfl
            · rw [Store.get_put_of_ne _ _ fun heq => ha (utf8_injective heq)]
      · cases h

/-- **Deferring a host sets its time**, and no other host's. -/
theorem deferHost_nextAllowed {faults : Faults} {F F' : Frontier} {host : Str}
    {untilMs fetchedAtMs : ℤ} (h : deferHost codecs faults F host untilMs fetchedAtMs = .ok F')
    (a : Str) :
    nextAllowedAtMs codecs F' a = if a = host then untilMs else nextAllowedAtMs codecs F a := by
  obtain ⟨value, hvalue, rfl⟩ := deferHost_ok h
  rw [nextAllowedAtMs]
  by_cases ha : a = host
  · subst ha
    rw [if_pos rfl, Store.get_put_self, Option.bind_some, codecs.hostState.decode_encode hvalue]
    rfl
  · rw [if_neg ha, Store.get_put_of_ne _ _ fun heq => ha (utf8_injective heq), nextAllowedAtMs]

end FrontierQueue
