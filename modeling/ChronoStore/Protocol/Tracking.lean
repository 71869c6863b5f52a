import ChronoStore.Protocol.Following

/-!
# What a catalog and a log say

A catalog and a log **agree** with a history of puts when the history falls into three parts: what
is only in the layers, what is in the layers and still in the log, and what is only in the log. A
crash between the publication of a manifest and the reset of the log is the reason for the middle
part, and `Agrees.contents` is the reason why it does no harm.

Of the first `n` puts nothing depends on unsynchronized bytes of the log. What a loss of power
leaves of the log then still **keeps** them (`Agrees.keeps`): each is there, or a later put to its
key.

`Tracks` asks this of everything that a loss of power may leave, of the catalogs and logs as well
that a process left behind that died before it synchronized a renaming or a truncation. Giving up
what is under way does not end it (`Stage.Is.abandoned`), and that is all that is needed of a crash.
-/

namespace ChronoStore

open FaultyDisk WriteHistory

variable {history : List WalPutRecord} {n : ℕ} {c c' : Catalog} {log log' : Option WalLog}
  {records : List WalPutRecord}

/-- Records as a write history. -/
def historyOf (records : List WalPutRecord) : List (Key × Value) := records.map WalPutRecord.entry

/-- A put is found, or a later one to its key. -/
theorem exists_lastWrite_historyOf (before : List WalPutRecord) (r : WalPutRecord)
    (after : List WalPutRecord) : ∃ r' ∈ r :: after, r'.entry.1 = r.entry.1 ∧
      lastWrite (historyOf (before ++ r :: after)) r.entry.1 = some r'.entry.2 := by
  have hkey : r.entry.1 ∈ keys (historyOf (r :: after)) := by simp [keys, historyOf]
  obtain ⟨v, hv⟩ := Option.isSome_iff_exists.1 (lastWrite_isSome_iff.2 hkey)
  obtain ⟨r', hr', hentry⟩ := List.mem_map.1 (mem_of_lastWrite_eq_some hv)
  refine ⟨r', hr', by rw [hentry], ?_⟩
  rw [historyOf, List.map_append, lastWrite_append]
  rw [historyOf] at hv
  rw [hv, hentry, Option.some_or]

/-! ### What is kept -/

/-- Each of the first `n` puts is there, or a later one to its key, where the layers of the catalog
and the records are found. -/
def Keeps (history : List WalPutRecord) (n : ℕ) (c : Catalog) (records : List WalPutRecord) :
    Prop :=
  ∀ before r after, history = before ++ r :: after → before.length < n →
    ∃ r' ∈ r :: after, r'.entry.1 = r.entry.1 ∧
      lastWrite (c.entries ++ historyOf records) r.entry.1 = some r'.entry.2

namespace Keeps

/-- Another put keeps what is kept. -/
theorem append (h : Keeps history n c records) (hn : n ≤ history.length)
    (more : List WalPutRecord) :
    Keeps (history ++ more) n c records := by
  intro before r after hhistory hlt
  rcases List.append_eq_append_iff.1 hhistory with ⟨front, rfl, hfront⟩ | ⟨back, hback, hafter⟩
  · rw [List.length_append] at hlt
    omega
  · cases back with
    | nil =>
      rw [hback, List.append_nil] at hn
      omega
    | cons r₀ back =>
      rw [List.cons_append] at hafter
      obtain ⟨rfl, rfl⟩ := List.cons.inj hafter
      obtain ⟨r', hr', hkey, hlast⟩ := h before r back hback hlt
      refine ⟨r', ?_, hkey, hlast⟩
      rw [← List.cons_append]
      exact List.mem_append_left _ hr'

theorem mono {m : ℕ} (h : Keeps history n c records) (hm : m ≤ n) : Keeps history m c records :=
  fun before r after hhistory hlt ↦ h before r after hhistory (lt_of_lt_of_le hlt hm)

/-- A catalog that says for each key what the old one says, or the history, keeps what the old one
keeps. -/
theorem republish (h : Keeps history n c records)
    (hsame : ∀ k, lastWrite c'.entries k = lastWrite c.entries k ∨
      lastWrite c'.entries k = lastWrite (historyOf history) k) : Keeps history n c' records := by
  intro before r after hhistory hlt
  obtain ⟨r', hr', hkey, hlast⟩ := h before r after hhistory hlt
  rw [lastWrite_append] at hlast
  cases hrecords : lastWrite (historyOf records) r.entry.1 with
  | some v =>
    rw [hrecords, Option.some_or] at hlast
    refine ⟨r', hr', hkey, ?_⟩
    rw [lastWrite_append, hrecords, Option.some_or, hlast]
  | none =>
    rw [hrecords, Option.none_or] at hlast
    rcases hsame r.entry.1 with hc | hc
    · refine ⟨r', hr', hkey, ?_⟩
      rw [lastWrite_append, hrecords, Option.none_or, hc, hlast]
    · obtain ⟨r'', hr'', hkey', hlast'⟩ := exists_lastWrite_historyOf before r after
      refine ⟨r'', hr'', hkey', ?_⟩
      rw [lastWrite_append, hrecords, Option.none_or, hc, hhistory, hlast']

end Keeps

/-! ### What is said -/

/-- The catalog and the log say what the history says, and of its first `n` puts nothing depends on
unsynchronized bytes of the log. -/
def Agrees (history : List WalPutRecord) (n : ℕ) (c : Catalog) (log : Option WalLog) : Prop :=
  ∃ settled absorbed pending : List WalPutRecord, history = settled ++ absorbed ++ pending ∧
    recordsOf log = absorbed ++ pending ∧
    (∀ k, lastWrite c.entries k = lastWrite (historyOf (settled ++ absorbed)) k) ∧
    n ≤ settled.length + syncedOf log

namespace Agrees

/-- **What the directory says** is what the history says. -/
theorem contents (h : Agrees history n c log) (k : Key) :
    lastWrite (c.entries ++ historyOf (recordsOf log)) k = lastWrite (historyOf history) k := by
  obtain ⟨settled, absorbed, pending, rfl, hlog, hc, -⟩ := h
  rw [hlog, lastWrite_append_congr (c := historyOf (settled ++ absorbed)) hc fun _ ↦ rfl]
  simp only [historyOf, List.map_append]
  rw [← List.append_assoc, lastWrite_append, lastWrite_append_self, ← lastWrite_append]

/-- Only the records of the log matter, and how many of them are synchronized. -/
theorem of_log (h : Agrees history n c log) (hrecords : recordsOf log' = recordsOf log)
    (hsynced : syncedOf log ≤ syncedOf log') : Agrees history n c log' := by
  obtain ⟨settled, absorbed, pending, hh, hlog, hc, hn⟩ := h
  exact ⟨settled, absorbed, pending, hh, hrecords.trans hlog, hc, by omega⟩

/-- One more record in the log is one more put. -/
theorem put (h : Agrees history n c log) {r : WalPutRecord}
    (hrecords : recordsOf log' = recordsOf log ++ [r]) (hsynced : syncedOf log ≤ syncedOf log') :
    Agrees (history ++ [r]) n c log' := by
  obtain ⟨settled, absorbed, pending, rfl, hlog, hc, hn⟩ := h
  refine ⟨settled, absorbed, pending ++ [r], by simp, ?_, hc, by omega⟩
  rw [hrecords, hlog, List.append_assoc]

/-- A log that is synchronized to its end covers the whole history. -/
theorem synchronized (h : Agrees history n c log)
    (hsynced : syncedOf log = (recordsOf log).length) : Agrees history history.length c log := by
  obtain ⟨settled, absorbed, pending, rfl, hlog, hc, -⟩ := h
  refine ⟨settled, absorbed, pending, rfl, hlog, hc, ?_⟩
  rw [hsynced, hlog]
  simp only [List.length_append]
  omega

/-- **Publication** keeps what is said. -/
theorem republish (h : Agrees history n c log) (hsame : Republishes c log c') :
    Agrees history n c' log := by
  have hcontents := h.contents
  obtain ⟨settled, absorbed, pending, rfl, hlog, hc, hn⟩ := h
  rcases hsame with hsame | hsame
  · exact ⟨settled, absorbed, pending, rfl, hlog, fun k ↦ (hsame k).trans (hc k), hn⟩
  · refine ⟨settled, absorbed ++ pending, [], by simp, by simpa using hlog, fun k ↦ ?_, hn⟩
    rw [hsame k, ← List.append_assoc, ← hcontents k]
    rfl

/-- **A log that says nothing new** may be emptied, and the whole history is then in the layers. -/
theorem absorbed (h : Agrees history n c log)
    (habsorbed : ∀ k, lastWrite (c.entries ++ historyOf (recordsOf log)) k = lastWrite c.entries k)
    (hrecords : recordsOf log' = []) : Agrees history history.length c log' :=
  ⟨history, [], [], by simp, by simpa using hrecords,
    fun k ↦ by rw [← habsorbed k, h.contents k, List.append_nil], Nat.le_add_right _ _⟩

/-- No more puts are synced than made. -/
theorem le_length (h : Agrees history n c log) : n ≤ history.length := by
  obtain ⟨settled, absorbed, pending, rfl, hlog, -, hn⟩ := h
  have hle : syncedOf log ≤ (recordsOf log).length := by
    cases log with
    | none => exact le_refl 0
    | some log => exact log.synced_le
  rw [hlog, List.length_append] at hle
  simp only [List.length_append]
  omega

theorem mono {m : ℕ} (h : Agrees history n c log) (hm : m ≤ n) : Agrees history m c log := by
  obtain ⟨settled, absorbed, pending, hh, hlog, hc, hn⟩ := h
  exact ⟨settled, absorbed, pending, hh, hlog, hc, hm.trans hn⟩

/-- **What is said is kept**, even if only the synchronized records of the log are left. -/
theorem keeps (h : Agrees history n c log) {j : ℕ} (hj : syncedOf log ≤ j) :
    Keeps history n c ((recordsOf log).take j) := by
  intro before r after hhistory hn
  obtain ⟨settled, absorbed, pending, rfl, hlog, hc, hle⟩ := h
  have hsame : ∀ k, lastWrite (c.entries ++ historyOf ((recordsOf log).take j)) k =
      lastWrite (historyOf (settled ++ absorbed ++ (recordsOf log).take j)) k := fun k ↦ by
    rw [lastWrite_append_congr hc fun _ ↦ rfl]
    simp only [historyOf, List.map_append]
  rw [hsame]
  -- a put of the log is among the records that are left
  have hpending : ∀ front, before = settled ++ front → recordsOf log = front ++ r :: after →
      ∃ r' ∈ r :: after, r'.entry.1 = r.entry.1 ∧
        lastWrite (historyOf (settled ++ absorbed ++ (recordsOf log).take j)) r.entry.1 =
          some r'.entry.2 := by
    rintro front rfl hfront
    rw [List.length_append] at hn
    obtain ⟨i, rfl⟩ : ∃ i, j = front.length + (i + 1) := ⟨j - front.length - 1, by omega⟩
    have htake : (recordsOf log).take (front.length + (i + 1)) = front ++ r :: after.take i := by
      rw [hfront, List.take_length_add_append, List.take_succ_cons]
    obtain ⟨r', hr', hkey, hlast⟩ :=
      exists_lastWrite_historyOf (settled ++ absorbed ++ front) r (after.take i)
    refine ⟨r', ?_, hkey, ?_⟩
    · exact (List.mem_cons.1 hr').elim (fun heq ↦ heq ▸ List.mem_cons_self)
        fun hmem ↦ List.mem_cons_of_mem _ (List.mem_of_mem_take hmem)
    · rwa [htake, ← List.append_assoc]
  rw [List.append_assoc, ← hlog] at hhistory
  rcases List.append_eq_append_iff.1 hhistory with
    ⟨front, hbefore, hfront⟩ | ⟨back, hsettled, hafter⟩
  · exact hpending front hbefore hfront
  · cases back with
    | nil =>
      rw [List.append_nil] at hsettled
      exact hpending [] (by rw [hsettled, List.append_nil]) hafter.symm
    | cons r₀ back =>
      rw [List.cons_append] at hafter
      obtain ⟨rfl, rfl⟩ := List.cons.inj hafter
      obtain ⟨r', hr', hkey, hlast⟩ := exists_lastWrite_historyOf before r
        (back ++ (absorbed ++ (recordsOf log).take j))
      refine ⟨r', ?_, hkey, ?_⟩
      · simp only [List.mem_cons, List.mem_append] at hr' ⊢
        rcases hr' with hr' | hr' | hr' | hr'
        · exact Or.inl hr'
        · exact Or.inr (Or.inl hr')
        · exact Or.inr (Or.inr (by rw [hlog]; exact List.mem_append_left _ hr'))
        · exact Or.inr (Or.inr (List.mem_of_mem_take hr'))
      · rw [hsettled]
        simpa only [List.append_assoc, List.cons_append] using hlast

/-- Whatever a loss of power leaves of the log now. -/
theorem keeps_of_mayLeave {log : WalLog} (h : Agrees history n c (some log))
    (holder : ∀ records, log.older records → Keeps history n c records)
    (hrecords : log.MayLeave records) : Keeps history n c records := by
  rcases hrecords with hrecords | ⟨j, hj, rfl⟩
  · exact holder records hrecords
  · exact h.keeps hj

end Agrees

/-! ### What is tracked -/

/-- Whatever a loss of power leaves of the catalog agrees, with the log, with the history, and
keeps, with every older log, the first `n` puts. -/
structure Tracks (history : List WalPutRecord) (n : ℕ) (c : Catalog) (log : Option WalLog) :
    Prop where
  agrees : ∀ p, c.MayLeave p → Agrees history n p log
  keeps : ∀ p, c.MayLeave p → ∀ records, olderOf log records → Keeps history n p records

/-- A durable catalog is the only one that a loss of power may leave. -/
theorem Catalog.eq_of_mayLeave {p : Catalog} (hdurable : c.older = []) (h : c.MayLeave p) :
    p = c := by
  rcases h with rfl | hmem
  · rfl
  · rw [hdurable] at hmem
    cases hmem

/-- Where nothing older may be found. -/
theorem Agrees.tracks (h : Agrees history n c log) (hdurable : c.older = [])
    (hlog : ∀ records, ¬olderOf log records) : Tracks history n c log where
  agrees p hp := by
    rw [Catalog.eq_of_mayLeave hdurable hp]
    exact h
  keeps _ _ records hrecords := absurd hrecords (hlog records)

namespace Tracks

/-- What is tracked agrees with the catalog as it is. -/
theorem now (h : Tracks history n c log) : Agrees history n c log := h.agrees c (Or.inl rfl)

/-- Catalog and log have the last writes of the history. -/
theorem contents (h : Tracks history n c log) (k : Key) :
    lastWrite (c.entries ++ historyOf (recordsOf log)) k = lastWrite (historyOf history) k :=
  h.now.contents k

theorem le_length (h : Tracks history n c log) : n ≤ history.length := h.now.le_length

theorem mono {m : ℕ} (h : Tracks history n c log) (hm : m ≤ n) : Tracks history m c log where
  agrees p hp := (h.agrees p hp).mono hm
  keeps p hp records hrecords := (h.keeps p hp records hrecords).mono hm

/-- The log may be replaced by another with the same records that loses nothing. -/
theorem of_log (h : Tracks history n c log) (hrecords : recordsOf log' = recordsOf log)
    (hdurable : AsDurable log log') : Tracks history n c log' where
  agrees p hp := (h.agrees p hp).of_log hrecords hdurable.synced_le
  keeps p hp records hold := h.keeps p hp records (hdurable.older records hold)

/-- One more record in the log is one more put. -/
theorem put (h : Tracks history n c log) {r : WalPutRecord}
    (hrecords : recordsOf log' = recordsOf log ++ [r]) (hdurable : AsDurable log log') :
    Tracks (history ++ [r]) n c log' where
  agrees p hp := (h.agrees p hp).put hrecords hdurable.synced_le
  keeps p hp records hold :=
    (h.keeps p hp records (hdurable.older records hold)).append h.le_length [r]

/-- Once the log is durable, all puts are synced. -/
theorem synchronized {log : WalLog} (h : Tracks history n c (some log)) (hdurable : log.Durable) :
    Tracks history history.length c (some log) where
  agrees p hp := (h.agrees p hp).synchronized hdurable.synced_eq
  keeps _ _ records hold := absurd hold (hdurable.older records)

/-- After a synchronization of the directory only the catalog itself is found. -/
theorem settled (h : Tracks history n c log) : Tracks history n c.settled log where
  agrees p hp := by
    rw [Catalog.eq_of_mayLeave (c := c.settled) rfl hp]
    exact h.now
  keeps p hp records hold := by
    rw [Catalog.eq_of_mayLeave (c := c.settled) rfl hp]
    exact h.keeps c (Or.inl rfl) records hold

/-- The catalog may be replaced by another with the same last writes. -/
theorem republish (h : Tracks history n c log) (hsame : Republishes c log c')
    (hdurable : c'.older = []) : Tracks history n c' log where
  agrees p hp := by
    rw [Catalog.eq_of_mayLeave hdurable hp]
    exact h.now.republish hsame
  keeps p hp records hold := by
    rw [Catalog.eq_of_mayLeave hdurable hp]
    refine (h.keeps c (Or.inl rfl) records hold).republish fun k ↦ ?_
    rcases hsame with hsame | hsame
    · exact Or.inl (hsame k)
    · exact Or.inr ((hsame k).trans (h.contents k))

/-- The log may be emptied once the catalog has its last writes. -/
theorem absorbed (h : Tracks history n c log)
    (habsorbed : ∀ k, lastWrite (c.entries ++ historyOf (recordsOf log)) k = lastWrite c.entries k)
    (hdurable : c.older = []) (hrecords : recordsOf log' = [])
    (hlog : ∀ records, ¬olderOf log' records) :
    Tracks history history.length c log' :=
  (h.now.absorbed habsorbed hrecords).tracks hdurable hlog

/-- **What a loss of power leaves** of catalog and log keeps the first puts. -/
theorem keeps_of_mayLeave {log : WalLog} (h : Tracks history n c (some log)) {p : Catalog}
    (hp : c.MayLeave p) (hrecords : log.MayLeave records) : Keeps history n p records :=
  (h.agrees p hp).keeps_of_mayLeave (h.keeps p hp) hrecords

end Tracks

/-- **Giving up** what is under way keeps what is tracked. -/
theorem Stage.Is.abandoned {st : Stage} (h : st.Is (Tracks history n)) :
    Tracks history n st.abandoned.catalog st.abandoned.log := by
  obtain ⟨c, log, ready, phase⟩ := st
  cases phase with
  | idle | staging | sealed => exact h.now
  | renamed previous =>
    have hprevious : Tracks history n previous log := h.before_rename previous rfl
    have hcases : ∀ p, (c.remember previous).MayLeave p →
        p = c.remember previous ∨ p = previous ∨ c.MayLeave p := by
      rintro p (rfl | hp)
      · exact Or.inl rfl
      · exact Or.inr ((List.mem_cons.1 hp).imp_right Or.inr)
    constructor
    · intro p hp
      rcases hcases p hp with rfl | rfl | hp
      · exact h.now.now
      · exact hprevious.now
      · exact h.now.agrees p hp
    · intro p hp records hold
      rcases hcases p hp with rfl | rfl | hp
      · exact h.now.keeps c (Or.inl rfl) records hold
      · exact hprevious.keeps p (Or.inl rfl) records hold
      · exact h.now.keeps p hp records hold
  | truncated previous =>
    have hprevious : Tracks history n c (some previous) := h.before_truncate previous rfl
    have hnow : Tracks history n c log := h.now
    cases log with
    | none => exact hnow
    | some log =>
      refine ⟨fun p hp ↦ hnow.agrees p hp, fun p hp records hold ↦ ?_⟩
      rcases hold with hold | hold
      · exact hnow.keeps p hp records hold
      · exact hprevious.keeps_of_mayLeave hp hold

end ChronoStore
