import ChronoStore.Protocol.Invariants
import ChronoStore.Protocol.Secured

/-!
# Puts that survive a loss of power

A put is **promised** to last when it returned and it, or a later call, made everything durable that
was put before: a put of a store that synchronizes on append, a `sync` or a `flush` that returned.
After a loss of power at any point of a session, whatever became of the processes before, the store
opens, and every promised put is there, or a later one to its key (`durable_of_found`) — **provided
that two kinds of directory entries are found**.

* The log, if there was one. Recovery creates it and synchronizes the file, but not the directory,
  as `replace_file` does after a renaming; until the first publication the name of the log may be
  missing after a loss of power, with all that is in it (`lost_put`).
* The layers that the manifest lists. A compaction that dies between the renaming of the manifest
  and the synchronization of the directory leaves two manifests that may be found; the next recovery
  removes the layers of the old one, although nothing has made the new one durable.
-/

namespace ChronoStore

open FaultyDisk WriteHistory

/-! ### One loss of power -/

/-- A fresh directory is secured. -/
theorem Fresh.secured {f : Directory} (hf : Fresh f) :
    Secured (Medium.ofFiles f) ⟨.empty, none, none, .idle⟩ := by
  have hnone : ∀ {name : Bytes}, f.find? name = none → (Medium.ofFiles f name).file = none :=
    fun hfile ↦ by rw [Medium.ofFiles, hfile, Option.map_none]
  have hlist : ∀ c, Stage.MayList ⟨.empty, none, none, .idle⟩ c → c = .empty := by
    rintro c ((rfl | hc) | hc)
    · rfl
    · cases hc
    · cases hc
  refine ⟨fun x hx ↦ ?_, fun x hx ↦ hx.elim, fun c hc ↦ ?_, fun c hc l hl ↦ ?_, fun c hc ↦ ?_,
    by simp, by simp, fun x hx ↦ hx.elim, fun p hp ↦ ?_, by simp⟩
  · exact Or.inl ⟨(Slot.current_of_no_file (hnone hf.1)).1 hx, rfl⟩
  · rw [hlist c hc]
  · rw [hlist c (Or.inl hc)] at hl
    cases hl
  · cases hc
  · cases (Slot.current_of_no_file (hnone hf.2)).1 hp

/-- A catalog as puts. -/
theorem Catalog.exists_historyOf (c : Catalog) : ∃ puts, historyOf puts = c.entries := by
  refine ⟨c.entries.map fun w ↦ ⟨w.1.1, ⟨w.1.2, w.2⟩⟩, ?_⟩
  rw [historyOf, List.map_map]
  exact List.map_id _

/-- A directory with a meaning opens. -/
theorem Holds.opens {g : Directory} {c : Catalog} {left : Option WalLog}
    (h : Holds g ⟨c, left, none, .idle⟩) (listing : Listing) (durability : WalDurability)
    {sched : List Event} (hfail : ¬Failing sched) :
    (Crashing sched ∧ ∃ w, StorageEngine.open listing durability ((), ⟨⟨g, []⟩, sched⟩) =
        .error .crash ((), w)) ∨
      ∃ e w, StorageEngine.open listing durability ((), ⟨⟨g, []⟩, sched⟩) = .ok e ((), w) ∧
        Answers e w.toDisk (c.entries ++ historyOf (recordsOf left)) := by
  obtain ⟨puts, hputs⟩ := c.exists_historyOf
  have hrecords : recordsOf (left.map WalLog.synchronized) = recordsOf left := by cases left <;> rfl
  have hagrees : Agrees (puts ++ recordsOf left) 0 c.settled (left.map WalLog.synchronized) :=
    ⟨puts, [], recordsOf left, by simp, hrecords, fun k ↦ by rw [List.append_nil, hputs]; rfl,
      Nat.zero_le _⟩
  have htracks : Tracks (puts ++ recordsOf left) 0 c.settled (left.map WalLog.synchronized) :=
    hagrees.tracks rfl fun _ ↦ by cases left <;> exact id
  have hstanding : Standing ⟨g, _, h.durable⟩ (puts ++ recordsOf left) 0 ⟨none, ⟨g, []⟩⟩ :=
    ⟨_, At.start _, .idle htracks⟩
  have hsame : historyOf (puts ++ recordsOf left) = c.entries ++ historyOf (recordsOf left) := by
    rw [← hputs, historyOf, List.map_append]
    rfl
  rw [← hsame]
  rcases hstanding.reopens listing durability hfail with hcrash | ⟨e, w, hrun, husable⟩
  · exact Or.inl hcrash
  · exact Or.inr ⟨e, w, hrun, husable.answers⟩

/-- The log is found, if there was one. -/
def LogFound (files g : Directory) : Prop := g.find? walName = none → files.find? walName = none

/-- A segment that was removed is found, if the manifest that is found lists it. -/
def SegmentsFound (files g : Directory) : Prop :=
  ∀ manifest, loadManifestIn g = .ok manifest → ∀ name ∈ manifest.segmentFiles,
    files.find? name = none → g.find? name ≠ none

/-- **What a loss of power may leave** of catalog and log keeps the first puts. -/
theorem Stage.Is.keeps {puts : List WalPutRecord} {n : ℕ} {st : Stage} (h : st.Is (Tracks puts n))
    {c : Catalog} (hc : st.MayList c) {log : WalLog} (hlog : st.MayLog log)
    {records : List WalPutRecord} (hrecords : log.MayLeave records) : Keeps puts n c records := by
  rcases hlog with hlog | hlog
  · have hnow : Tracks puts n st.catalog (some log) := hlog ▸ h.now
    rcases hc with (rfl | hc) | hc
    · exact hnow.keeps_of_mayLeave (Or.inl rfl) hrecords
    · have hprevious : Tracks puts n c (some log) := hlog ▸ h.before_rename c hc
      exact hprevious.keeps_of_mayLeave (Or.inl rfl) hrecords
    · exact hnow.keeps_of_mayLeave (Or.inr hc) hrecords
  · have hprevious : Tracks puts n st.catalog (some log) := h.before_truncate log hlog
    rcases hc with (rfl | hc) | hc
    · exact hprevious.keeps_of_mayLeave (Or.inl rfl) hrecords
    · rw [hc] at hlog
      cases hlog
    · exact hprevious.keeps_of_mayLeave (Or.inr hc) hrecords

/-- Without a log the catalog keeps the first puts. -/
theorem Stage.Is.keeps_of_no_log {puts : List WalPutRecord} {n : ℕ} {st : Stage}
    (h : st.Is (Tracks puts n)) (hlog : st.log = none) {c : Catalog} (hc : st.MayList c) :
    Keeps puts n c [] := by
  have hagrees : Agrees puts n c st.log := by
    rcases hc with (rfl | hc) | hc
    · exact h.now.now
    · exact (h.before_rename c hc).now
    · exact h.now.agrees c (Or.inr hc)
  rw [hlog] at hagrees
  exact hagrees.keeps (j := 0) (le_refl _)

/-- **A loss of power at any point** of a run leaves a directory that opens, if no segment is
missing that is listed; and where the log is found if there was one, what was to be kept is there.
-/
theorem Reaches.opens_after_loss {f : Directory} (hf : Fresh f) {puts : List WalPutRecord} {n : ℕ}
    {d : Disk Bytes UInt8} (h : Reaches hf.origin (Tracks puts n) d) {g : Directory}
    (hg : ((Medium.ofFiles f).applyAll d.log).Leaves g) (hsegments : SegmentsFound d.files g) :
    ∃ contents, (∀ listing durability sched, ¬Failing sched →
        (Crashing sched ∧ ∃ w, StorageEngine.open listing durability ((), ⟨⟨g, []⟩, sched⟩) =
            .error .crash ((), w)) ∨
          ∃ e w, StorageEngine.open listing durability ((), ⟨⟨g, []⟩, sched⟩) = .ok e ((), w) ∧
            Answers e w.toDisk contents) ∧
      (LogFound d.files g → ∀ before r after, puts = before ++ r :: after → before.length < n →
        ∃ r' ∈ r :: after, r'.entry.1 = r.entry.1 ∧
        lastWrite contents r.entry.1 = some r'.entry.2) := by
  obtain ⟨st, hat, hst⟩ := h
  have hsecured : Secured ((Medium.ofFiles f).applyAll d.log) st := hat.follows.secured hf.secured
  have hmatch : ((Medium.ofFiles f).applyAll d.log).Matches d.files := by
    rw [hat.files_eq]
    exact (Medium.matches_ofFiles f).applyAll d.log
  obtain ⟨c, left, hholds, hc, hleft⟩ := hsecured.holds hmatch hg fun c hfile l hl ↦
    hsegments c.manifest hfile.loadManifestIn_eq l.name (List.mem_map_of_mem hl)
  refine ⟨c.entries ++ historyOf (recordsOf left), fun listing durability sched ↦
    hholds.opens listing durability, fun hwal ↦ ?_⟩
  rcases hleft with rfl | ⟨log, hlog, hrecords⟩
  · have hnone : st.log = none := by
      have hfile := hat.holds.wal_file
      rw [hwal hholds.wal_file] at hfile
      exact Option.map_eq_none_iff.1 hfile.symm
    exact hst.keeps_of_no_log hnone hc
  · exact hst.keeps hc hlog hrecords

/-! ### Sessions -/

/-- The put of a call is promised to last: it returned, and it or a later call made durable what was
put before. -/
def Promised (f : Directory) (before : List Entry) (x : Entry) (after : List Entry) : Prop :=
  x.outcome = .returned ∧ ∃ mid y rest m, x :: after = mid ++ y :: rest ∧
    Session f (before ++ mid) m ∧
    y.Settles m

variable {f : Directory} {history : List Entry} {m : Machine}

/-- Only the put of a call counts. -/
theorem Entry.Resolves.mem_puts {x : Entry} {effect : List WalPutRecord} (h : x.Resolves effect)
    {r : WalPutRecord} (hr : r ∈ effect) : r ∈ x.call.puts := by
  unfold Entry.Resolves at h
  split at h
  · exact h ▸ hr
  · rcases h with rfl | rfl
    · cases hr
    · exact hr
  · rcases h with rfl | ⟨-, rfl⟩
    · cases hr
    · exact hr

/-- The first calls have no more effects than all of them. -/
theorem length_flatten_take_le {α : Type} (effects : List (List α)) (k : ℕ) :
    (effects.take k).flatten.length ≤ effects.flatten.length :=
  ((List.take_sublist k effects).flatten).length_le

/-- The puts that the settling calls of a history settle are among the first `n`. -/
def SettledWithin (f : Directory) (history : List Entry) (effects : List (List WalPutRecord))
    (n : ℕ) :
    Prop :=
  ∀ before y after m, history = before ++ y :: after → Session f before m → y.Settles m →
    (effects.take (before.length + 1)).flatten.length ≤ n

/-- A call that settles nothing changes nothing. -/
theorem SettledWithin.concat {effects : List (List WalPutRecord)} {n : ℕ}
    (h : SettledWithin f history effects n) (hlen : history.length = effects.length) {x : Entry}
    (hx : ∀ m, Session f history m → ¬x.Settles m) (effect : List WalPutRecord) :
    SettledWithin f (history ++ [x]) (effects ++ [effect]) n := by
  intro before y after m hsplit hbefore hy
  rcases List.eq_nil_or_concat after with rfl | ⟨after', last, rfl⟩
  · obtain ⟨rfl, hxs⟩ := List.append_inj' hsplit rfl
    obtain rfl : x = y := by simpa using hxs
    exact absurd hy (hx m hbefore)
  · rw [List.concat_eq_append, ← List.cons_append, ← List.append_assoc] at hsplit
    obtain ⟨rfl, -⟩ := List.append_inj' hsplit rfl
    rw [List.take_append_of_le_length (by
      rw [← hlen, List.length_append, List.length_cons]
      omega)]
    exact h before y after' m rfl hbefore hy

/-- **Settling calls settle**, whatever fails and wherever a process dies. -/
theorem Session.settled (hf : Fresh f) (h : Session f history m) :
    ∃ effects n, List.Forall₂ Entry.Resolves history effects ∧
      Standing hf.origin effects.flatten n m ∧ SettledWithin f history effects n := by
  induction h with
  | start => exact ⟨[], 0, .nil, hf.standing, by simp [SettledWithin]⟩
  | @call history m m' x hprev hx ih =>
    obtain ⟨effects, n, hall, hnow, hsettled⟩ := ih
    obtain ⟨effect, hresolves, hnext, hdurable, -⟩ := hnow.step hx
    have hflat : (effects ++ [effect]).flatten = effects.flatten ++ effect := by simp
    have hall' := List.rel_append hall (.cons hresolves .nil)
    by_cases hsettles : x.Settles m
    · refine ⟨effects ++ [effect], (effects ++ [effect]).flatten.length, hall', ?_,
        fun before y after m₁ _ _ _ ↦ length_flatten_take_le _ _⟩
      rw [hflat]
      exact hdurable hsettles
    · refine ⟨effects ++ [effect], n, hall', by rwa [hflat],
        hsettled.concat hall.length_eq (fun m₁ h₁ ↦ ?_) effect⟩
      rwa [Session.machine_eq h₁ hprev]

/-- The puts around a call. -/
theorem exists_effects_around {before after : List Entry} {x : Entry}
    {effects : List (List WalPutRecord)}
    (h : List.Forall₂ Entry.Resolves (before ++ x :: after) effects) :
    ∃ front effect back, effects = front ++ effect :: back ∧ front.length = before.length ∧
      x.Resolves effect ∧ List.Forall₂ Entry.Resolves after back := by
  induction before generalizing effects with
  | nil =>
    obtain ⟨effect, back, hx, hafter, rfl⟩ := List.forall₂_cons_left_iff.1 h
    exact ⟨[], effect, back, rfl, rfl, hx, hafter⟩
  | cons y before ih =>
    obtain ⟨first, rest, -, hrest, rfl⟩ := List.forall₂_cons_left_iff.1 h
    obtain ⟨front, effect, back, rfl, hlen, hx, hafter⟩ := ih hrest
    exact ⟨first :: front, effect, back, rfl, by rw [List.length_cons, hlen]; rfl, hx, hafter⟩

/-- A put that counts is the put of some call. -/
theorem exists_call_of_mem_flatten {calls : List Entry} {effects : List (List WalPutRecord)}
    (h : List.Forall₂ Entry.Resolves calls effects) {r : WalPutRecord} (hr : r ∈ effects.flatten) :
    ∃ y ∈ calls, r ∈ y.call.puts := by
  induction h with
  | nil => cases hr
  | @cons y effect calls effects hy _ ih =>
    rw [List.flatten_cons, List.mem_append] at hr
    rcases hr with hr | hr
    · exact ⟨y, List.mem_cons_self, hy.mem_puts hr⟩
    · obtain ⟨z, hz, hmem⟩ := ih hr
      exact ⟨z, List.mem_cons_of_mem _ hz, hmem⟩

/-- **Durability.** Take any session on a directory that held no store before, with processes that
died at any step, cut off by a loss of power at any point of its last call, and any directory that
the loss may leave. If every segment that was removed and that the manifest found still lists is
found, then the store opens, and answers every query as some history does. If also the log is found,
or there was none, then that history holds for the key of every promised put the value of that put,
or of a later one. -/
theorem durable_of_found (hf : Fresh f) (h : Session f history m) {g : Directory}
    (hg : ((Medium.ofFiles f).applyAll m.disk.log).Leaves g)
    (hsegments : SegmentsFound m.disk.files g) :
    ∃ contents, (∀ listing durability sched, ¬Failing sched →
        (Crashing sched ∧ ∃ w, StorageEngine.open listing durability ((), ⟨⟨g, []⟩, sched⟩) =
            .error .crash ((), w)) ∨
          ∃ e w, StorageEngine.open listing durability ((), ⟨⟨g, []⟩, sched⟩) = .ok e ((), w) ∧
            Answers e w.toDisk contents) ∧
      (LogFound m.disk.files g →
        ∀ before x after, history = before ++ x :: after → Promised f before x after →
          ∀ r ∈ x.call.puts, ∃ y ∈ x :: after, ∃ r' ∈ y.call.puts,
            r'.entry.1 = r.entry.1 ∧ lastWrite contents r.entry.1 = some r'.entry.2) := by
  obtain ⟨effects, n, hall, hstanding, hsettled⟩ := h.settled hf
  obtain ⟨contents, hopens, hkept⟩ := hstanding.reaches.opens_after_loss hf hg hsegments
  refine ⟨contents, hopens, ?_⟩
  rintro hwal before x after rfl ⟨hreturned, mid, y, rest, m₁, hmid, hsession, hsettles⟩ r hr
  have hn := hsettled (before ++ mid) y rest m₁ (by rw [hmid, List.append_assoc]) hsession hsettles
  obtain ⟨front, effect, back, rfl, hfront, hx, hafter⟩ := exists_effects_around hall
  obtain rfl : effect = x.call.puts := by
    rw [Entry.Resolves, hreturned] at hx
    exact hx
  obtain ⟨p₁, p₂, hputs⟩ := List.append_of_mem hr
  rw [List.length_append, ← hfront, Nat.add_assoc, List.take_length_add_append, List.take_succ_cons,
    List.flatten_append, List.flatten_cons, List.length_append, List.length_append, hputs,
    List.length_append, List.length_cons] at hn
  obtain ⟨r', hr', hkey, hlast⟩ := hkept hwal (front.flatten ++ p₁) r (p₂ ++ back.flatten)
    (by rw [List.flatten_append, List.flatten_cons, hputs]; simp) (by
      rw [List.length_append]
      omega)
  have hin : r' ∈ x.call.puts ∨ r' ∈ back.flatten := by
    rw [hputs]
    simp only [List.mem_cons, List.mem_append] at hr' ⊢
    tauto
  rcases hin with hin | hin
  · exact ⟨x, List.mem_cons_self, r', hin, hkey, hlast⟩
  · obtain ⟨z, hz, hmem⟩ := exists_call_of_mem_flatten hafter hin
    exact ⟨z, List.mem_cons_of_mem _ hz, r', hmem, hkey, hlast⟩

/-! ### A store that was never published -/

/-- An opening that synchronizes on append, and a put. -/
def syncedPut : List Entry :=
  [⟨.open .sorted .syncOnAppend, [], .returned⟩,
    ⟨.request (.put cpuRecord.series cpuRecord.sample), [], .returned⟩]

/-- Nothing in this session synchronizes the directory. -/
theorem exists_syncedPut : ∃ m, Session OrderedMap.empty syncedPut m ∧ .fsyncDir ∉ m.disk.log ∧
    Promised OrderedMap.empty (syncedPut.take 1)
      ⟨.request (.put cpuRecord.series cpuRecord.sample), [], .returned⟩ [] := by
  obtain ⟨m, h, hlog⟩ := @exists_session OrderedMap.empty syncedPut
    (fun m ↦ Step.fsyncDir ∉ m.disk.log) (by decide +kernel)
  obtain ⟨m₁, h₁, hopen⟩ := @exists_session OrderedMap.empty (syncedPut.take 1)
    (fun m ↦ m.engine.any fun e ↦ e.walWriter.durability = .syncOnAppend) (by decide +kernel)
  obtain ⟨e, he, hdurability⟩ := (Option.any_eq_true _ _).1 hopen
  refine ⟨m, h, of_decide_eq_true hlog, rfl, [], _, [], m₁, rfl, h₁, rfl, _, e, rfl, he, ?_⟩
  rw [of_decide_eq_true hdurability]
  rfl

/-- **A promised put that is lost**: the loss of power leaves the directory empty, and the store
opens without the put. -/
theorem lost_put : ∃ m, Session OrderedMap.empty syncedPut m ∧
    Promised OrderedMap.empty (syncedPut.take 1)
      ⟨.request (.put cpuRecord.series cpuRecord.sample), [], .returned⟩ [] ∧
    ((Medium.ofFiles OrderedMap.empty).applyAll m.disk.log).Leaves OrderedMap.empty ∧
    ∃ e w, StorageEngine.open .sorted .syncOnAppend ((), ⟨⟨OrderedMap.empty, []⟩, []⟩) =
      .ok e ((), w) ∧
      Returns (StorageEngine.get cpuRecord.series cpuRecord.sample.timestamp) e w.toDisk none := by
  obtain ⟨m, h, hlog, hpromised⟩ := exists_syncedPut
  have hholds : Holds OrderedMap.empty ⟨.empty, none, none, .idle⟩ := fresh_empty.origin.holds
  refine ⟨m, h, hpromised, Medium.leaves_empty hlog, ?_⟩
  rcases hholds.opens .sorted .syncOnAppend not_failing_nil with
    ⟨hcrash, -⟩ | ⟨e, w, hrun, hanswers⟩
  · exact absurd hcrash not_crashing_nil
  · exact ⟨e, w, hrun, hanswers.get _ _⟩

/-! ### A torn log -/

/-- A put that a flush promises to last, and one that is killed when a part of its frame is written.
-/
def tornPut : List Entry :=
  [openCall, putCall cpuRecord, flushCall, ⟨(putCall laterRecord).call, [.crash 20], .crashed⟩]

/-- What is on the disk then. -/
theorem exists_tornPut : ∃ m before, Session OrderedMap.empty tornPut m ∧
    m.disk.log = before ++ [.append walName ((walFrame laterRecord).take 20)] ∧
    m.disk.files.find? walName = some ((walFrame laterRecord).take 20) ∧
    Promised OrderedMap.empty [openCall] (putCall cpuRecord) (tornPut.drop 2) := by
  obtain ⟨m, h, hend⟩ := @exists_session OrderedMap.empty tornPut (fun m ↦
    m.disk.log.getLast? = some (.append walName ((walFrame laterRecord).take 20)) ∧
      m.disk.files.find? walName = some ((walFrame laterRecord).take 20)) (by decide +kernel)
  obtain ⟨hlast, hwal⟩ := of_decide_eq_true hend
  obtain ⟨before, hlog⟩ := List.getLast?_eq_some_iff.1 hlast
  obtain ⟨m₁, h₁, hopen⟩ := @exists_session OrderedMap.empty (tornPut.take 2)
    (fun m ↦ m.engine.isSome) (by decide +kernel)
  obtain ⟨e, he⟩ := Option.isSome_iff_exists.1 hopen
  exact ⟨m, before, h, hlog, hwal, rfl, [putCall cpuRecord], flushCall, _, m₁, rfl, h₁, rfl,
    .flush, e, rfl, he, rfl⟩

/-- The loss leaves seven of the twenty bytes, and the segment of the promised put. -/
theorem durable_of_found_tornPut : ∃ m, Session OrderedMap.empty tornPut m ∧ ∃ g,
    ((Medium.ofFiles OrderedMap.empty).applyAll m.disk.log).Leaves g ∧
      g.find? walName = some ((walFrame laterRecord).take 7) ∧
      ∃ contents, (∃ e w, StorageEngine.open .sorted .buffered ((), ⟨⟨g, []⟩, []⟩) = .ok e ((), w) ∧
          Answers e w.toDisk contents) ∧
        lastWrite contents cpuRecord.entry.1 = some cpuRecord.entry.2 := by
  obtain ⟨m, before, h, hlog, hwal, hpromised⟩ := exists_tornPut
  obtain ⟨effects, n, -, hstanding, -⟩ := h.settled fresh_empty
  obtain ⟨st, hat, -⟩ := hstanding.reaches
  have hmatch : ((Medium.ofFiles OrderedMap.empty).applyAll m.disk.log).Matches m.disk.files := by
    rw [hat.files_eq]
    exact (Medium.matches_ofFiles _).applyAll _
  have hfiles : ((Medium.ofFiles OrderedMap.empty).applyAll m.disk.log).Leaves m.disk.files :=
    ((Medium.sound_ofFiles _).applyAll _).leaves hmatch
  let g : Directory := m.disk.files.insert walName ((walFrame laterRecord).take 7)
  have hother : ∀ {name}, name ≠ walName → g.find? name = m.disk.files.find? name := fun hne ↦ by
    rw [OrderedMap.find?_insert, if_neg hne]
  have hleaves : ((Medium.ofFiles OrderedMap.empty).applyAll m.disk.log).Leaves g := by
    intro name
    by_cases hname : name = walName
    · -- the append of the killed put is the last step, and extends an empty log
      subst hname
      rw [hlog, Medium.applyAll_concat] at hmatch ⊢
      obtain ⟨f, hfile, hcontent⟩ := hmatch.exists_file hwal
      rw [Medium.apply_append_self] at hfile
      obtain ⟨f₀, hfile₀, rfl⟩ := Option.map_eq_some_iff.1 hfile
      have hshows := Medium.shows_append hfile₀
        (List.take_prefix 7 ((walFrame laterRecord).take 20))
      rw [List.append_left_eq_self.1 hcontent, List.nil_append, List.take_take] at hshows
      rwa [OrderedMap.find?_insert, if_pos rfl]
    · rw [hother hname]
      exact hfiles name
  have hmanifest : loadManifestIn g = .ok st.catalog.manifest := by
    rw [loadManifestIn, hother (by decide), ← loadManifestIn, hat.holds.loadManifestIn_eq]
  have hsegments : SegmentsFound m.disk.files g := by
    intro manifest hload name hname hnone
    obtain rfl := Except.ok.inj (hmanifest.symm.trans hload)
    obtain ⟨l, hl, rfl⟩ := List.mem_map.1 hname
    rw [hat.holds.layer_files l hl] at hnone
    cases hnone
  have hfound : LogFound m.disk.files g := fun hnone ↦ by
    rw [OrderedMap.find?_insert, if_pos rfl] at hnone
    cases hnone
  obtain ⟨contents, hopens, hkept⟩ := durable_of_found fresh_empty h hleaves hsegments
  refine ⟨m, h, g, hleaves, by rw [OrderedMap.find?_insert, if_pos rfl], contents, ?_, ?_⟩
  · rcases hopens .sorted .buffered [] not_failing_nil with ⟨hcrash, -⟩ | hopen
    · exact absurd hcrash not_crashing_nil
    · exact hopen
  · obtain ⟨y, hy, r', hr', hkey, hlast⟩ := hkept hfound [openCall] _ (tornPut.drop 2) rfl hpromised
      cpuRecord List.mem_cons_self
    -- the killed put is to another timestamp
    have hsame : ∀ y ∈ putCall cpuRecord :: tornPut.drop 2, ∀ r' ∈ y.call.puts,
        r'.entry.1 = cpuRecord.entry.1 → r'.entry.2 = cpuRecord.entry.2 := by decide +kernel
    rw [hlast, hsame y hy r' hr' hkey]

end ChronoStore
