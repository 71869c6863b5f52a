import ChronoStore.Foundation.PowerLoss
import ChronoStore.Protocol.Following

/-!
# The protocol against a loss of power

What the order of synchronizations, renamings and truncations is good for. `Secured M st` says what
may be found on a medium at a stage: a manifest that lists the catalog of the stage, or an older one
while a renaming is not durable; the layers of the catalog, whole; and of the log at least the
records that are synchronized, or what it was before it was cut. Moves preserve it (`Move.secured`),
and so does giving up what is under way.

Two things are not secured.

* The name of the log is made durable by nothing but the next publication, and `Secured.wal_older`
  is all that can be said: if the log is not found, it is because the name is new.
* A process that dies between renaming a manifest and synchronizing the directory leaves two
  manifests that may be found. The next recovery reads the new one and removes the layers that only
  the old one lists, and does not synchronize the directory before that; `Secured.older_layers` is
  what is left of them.

Where neither has done harm, a loss of power leaves a directory with a meaning (`Secured.holds`).
-/

namespace ChronoStore

open FaultyDisk

/-! ### What may be left of a log -/

/-- At least the synchronized records are left, or the file is found as it was before it was cut. -/
def WalLog.Survives (log : WalLog) (p : Bytes) : Prop :=
  walBytes (log.records.take log.synced) <+: p ∧ p <+: log.bytes ∨
    ∃ left : WalLog, log.older left.records ∧ left.bytes = p

namespace WalLog

variable {log log' : WalLog} {p piece : Bytes}

/-- What has been synced is at the front of the log. -/
theorem walBytes_take_synced (log : WalLog) :
    walBytes (log.records.take log.synced) <+: log.bytes := by
  obtain ⟨rest, hrest⟩ := List.take_prefix log.synced log.records
  refine ⟨walBytes rest ++ log.tail, ?_⟩
  rw [bytes, ← List.append_assoc]
  congr 1
  conv_rhs => rw [← hrest]
  simp only [walBytes, List.flatMap_append]

/-- The log may survive as it is. -/
theorem survives_bytes (log : WalLog) : log.Survives log.bytes :=
  Or.inl ⟨log.walBytes_take_synced, List.prefix_refl _⟩

/-- An append that may have been done in part. -/
theorem survives_append (hbytes : log'.bytes = log.bytes ++ piece)
    (hrecords : log.records <+: log'.records) (hsynced : log'.synced = log.synced)
    (holder : log'.older = log.older) (h : log.Survives p ∨ ∃ q, q <+: piece ∧ p = log.bytes ++ q) :
    log'.Survives p := by
  have htake : log'.records.take log'.synced = log.records.take log.synced := by
    obtain ⟨more, hmore⟩ := hrecords
    rw [hsynced, ← hmore, List.take_append_of_le_length log.synced_le]
  rw [Survives, htake, hbytes, holder]
  rcases h with (⟨hfront, hp⟩ | hleft) | ⟨q, hq, rfl⟩
  · exact Or.inl ⟨hfront, hp.trans (List.prefix_append _ _)⟩
  · exact Or.inr hleft
  · exact Or.inl ⟨log.walBytes_take_synced.trans (List.prefix_append _ _),
      (List.prefix_append_right_inj _).2 hq⟩

/-- **What is left of a log is a log**, of the first records or of older ones. -/
theorem Survives.exists_cut (h : log.Survives p) :
    ∃ left : WalLog, left.bytes = p ∧ log.MayLeave left.records := by
  rcases h with ⟨⟨q, rfl⟩, hp⟩ | ⟨left, holder, hbytes⟩
  swap
  · exact ⟨left, hbytes, Or.inl holder⟩
  have hsplit : log.bytes =
      walBytes (log.records.take log.synced) ++
        (walBytes (log.records.drop log.synced) ++ log.tail) := by
    rw [bytes, ← List.append_assoc]
    congr 1
    conv_lhs => rw [← List.take_append_drop log.synced log.records]
    simp only [walBytes, List.flatMap_append]
  have hlen := hp.length_le
  rw [hsplit, List.prefix_append_right_inj] at hp
  obtain ⟨j, -, tail, htail, rfl⟩ := exists_walBytes_of_cut
    (fun r hr ↦ log.accepted r (List.mem_of_mem_drop hr)) log.incomplete hp
  have hbytes : walBytes (log.records.take (log.synced + j)) ++ tail =
      walBytes (log.records.take log.synced) ++
        (walBytes ((log.records.drop log.synced).take j) ++ tail) := by
    rw [List.take_add, ← List.append_assoc]
    simp only [walBytes, List.flatMap_append]
  refine ⟨⟨log.records.take (log.synced + j), tail, 0, fun _ ↦ False,
    fun r hr ↦ log.accepted r (List.mem_of_mem_take hr), htail, ?_, Nat.zero_le _⟩, hbytes,
    Or.inr ⟨log.synced + j, Nat.le_add_right _ _, rfl⟩⟩
  rw [hbytes]
  exact lt_of_le_of_lt hlen log.small

/-- What may be found after the process died is what might have been found before. -/
theorem Survives.remember (h : log.Survives p) (previous : WalLog) :
    (log.remember previous).Survives p := by
  rcases h with hnow | ⟨left, holder, hbytes⟩
  · exact Or.inl hnow
  · exact Or.inr ⟨left, Or.inl holder, hbytes⟩

/-- What may survive of a log may survive of one that remembers it. -/
theorem Survives.remembered (h : log.Survives p) (log' : WalLog) :
    (log'.remember log).Survives p := by
  obtain ⟨left, hbytes, hleft⟩ := h.exists_cut
  exact Or.inr ⟨left, Or.inr hleft, hbytes⟩

end WalLog

/-! ### What may be found at a stage -/

/-- The catalogs whose layers are in their place: the present one, and the one before it while a
renaming is under way. -/
def Stage.Lists (st : Stage) (c : Catalog) : Prop := c = st.catalog ∨ st.phase = .renamed c

/-- The catalogs that the manifest may list. -/
def Stage.MayList (st : Stage) (c : Catalog) : Prop := st.Lists c ∨ c ∈ st.catalog.older

/-- The logs of which the rest may be found. -/
def Stage.MayLog (st : Stage) (log : WalLog) : Prop := st.log = some log ∨ st.phase = .truncated log

/-- What may be found on the medium is what the stage promises. -/
structure Secured (M : Medium Bytes UInt8) (st : Stage) : Prop where
  manifest_now : ∀ x, (M manifestName).Current x → st.catalog.IsManifest x
  manifest_older : ∀ x, (M manifestName).older x → ∃ c, st.MayList c ∧ c.IsManifest x
  generation_le : ∀ c, st.MayList c → c.generation ≤ st.catalog.generation
  layers : ∀ c, st.Lists c → ∀ l ∈ c.layers, ∀ x, (M l.name).Shows x →
    x = some (segmentBytes l.blocks)
  older_layers : ∀ c ∈ st.catalog.older, ∀ l ∈ c.layers, ∀ x, (M l.name).Shows x →
    x = some (segmentBytes l.blocks) ∨ x = none ∧ (M l.name).file = none
  ready_now : ∀ l, st.ready = some l → ∀ x, (M l.name).Current x → x = some (segmentBytes l.blocks)
  ready_durable : ∀ l, st.ready = some l → (∀ previous, st.phase ≠ .renamed previous) →
    ∀ x, (M l.name).Shows x → x = some (segmentBytes l.blocks)
  wal_older : ∀ x, (M walName).older x → x = none
  wal_now : ∀ p, (M walName).Current (some p) → ∃ log, st.MayLog log ∧ log.Survives p
  sealed_now : ∀ target content, st.phase = .sealed target content →
    ∀ x, (M (temporaryName (st.catalog.pathOf target))).Current x → x = some content

variable {M M' : Medium Bytes UInt8} {st st' : Stage} {files : Directory} {step : Step Bytes UInt8}

/-- **What a loss of power leaves has a meaning**, unless the manifest that is found lists a layer
that was removed and is not found any more: a catalog that the manifest may list, and what may be
left of the log. -/
theorem Secured.holds (h : Secured M st) (hmatch : M.Matches files) {g : Directory}
    (hg : M.Leaves g)
    (hfound : ∀ c : Catalog, c.IsManifest (g.find? manifestName) → ∀ l ∈ c.layers,
      files.find? l.name = none → g.find? l.name ≠ none) :
    ∃ c left, Holds g ⟨c, left, none, .idle⟩ ∧ st.MayList c ∧
      (left = none ∨ ∃ log, st.MayLog log ∧ log.MayLeave (recordsOf left)) := by
  have hmanifest : ∃ c, st.MayList c ∧ c.IsManifest (g.find? manifestName) := by
    rcases hg manifestName with holder | hnow
    · exact h.manifest_older _ holder
    · exact ⟨st.catalog, Or.inl (Or.inl rfl), h.manifest_now _ hnow⟩
  obtain ⟨c, hc, hfile⟩ := hmanifest
  have hlayers : ∀ l ∈ c.layers, l.In g := by
    intro l hl
    rcases hc with hc | hc
    · exact h.layers c hc l hl _ (hg l.name)
    · rcases h.older_layers c hc l hl _ (hg l.name) with hthere | ⟨hnone, hremoved⟩
      · exact hthere
      · -- a layer of an older catalog that is not found was removed
        have hgone : files.find? l.name = none := by rw [← hmatch, hremoved, Option.map_none]
        exact absurd hnone (hfound c hfile l hl hgone)
  have hholds : ∀ left : Option WalLog, g.find? walName = left.map WalLog.bytes →
      Holds g ⟨c, left, none, .idle⟩ := fun left hleft ↦
    ⟨hfile, hlayers, hleft, by simp, by simp⟩
  cases hwal : g.find? walName with
  | none => exact ⟨c, none, hholds none hwal, hc, Or.inl rfl⟩
  | some p =>
    have hshows := hg walName
    rw [hwal] at hshows
    rcases hshows with holder | hnow
    · cases h.wal_older _ holder
    · obtain ⟨log, hlog, hsurvives⟩ := h.wal_now p hnow
      obtain ⟨left, hbytes, hleft⟩ := hsurvives.exists_cut
      refine ⟨c, some left, hholds (some left) ?_, hc, Or.inr ⟨log, hlog, hleft⟩⟩
      rw [hwal, Option.map_some, hbytes]

/-! ### Moves -/

/-- A step that leaves the manifest and the segments alone, outside of a publication. -/
theorem Secured.catalog_kept (h : Secured M st) {log : Option WalLog} {phase : Phase}
    (hmanifest : M' manifestName = M manifestName) (hlayer : ∀ l : Layer, M' l.name = M l.name)
    (hbefore : ∀ previous, st.phase ≠ .renamed previous)
    (hphase : ∀ previous, phase ≠ .renamed previous)
    (holder : ∀ x, (M' walName).older x → x = none)
    (hnow : ∀ p, (M' walName).Current (some p) →
      ∃ l, Stage.MayLog ⟨st.catalog, log, st.ready, phase⟩ l ∧ l.Survives p)
    (hsealed : ∀ target content, phase = .sealed target content →
      ∀ x, (M' (temporaryName (st.catalog.pathOf target))).Current x → x = some content) :
    Secured M' ⟨st.catalog, log, st.ready, phase⟩ := by
  have hlists : ∀ c, Stage.Lists ⟨st.catalog, log, st.ready, phase⟩ c → c = st.catalog :=
    fun c hc ↦ hc.resolve_right (hphase c)
  refine ⟨fun x hx ↦ ?_, fun x hx ↦ ?_, fun c hc ↦ ?_, fun c hc l hl x hx ↦ ?_,
    fun c hc l hl x hx ↦ ?_, fun l hl x hx ↦ ?_, fun l hl _ x hx ↦ ?_, holder, hnow, hsealed⟩
  · rw [hmanifest] at hx
    exact h.manifest_now x hx
  · rw [hmanifest] at hx
    obtain ⟨c, hc, hfile⟩ := h.manifest_older x hx
    exact ⟨c, hc.imp_left fun hc ↦ Or.inl (hc.resolve_right (hbefore c)), hfile⟩
  · exact h.generation_le c (hc.imp_left fun hc ↦ Or.inl (hlists c hc))
  · obtain rfl := hlists c hc
    rw [hlayer] at hx
    exact h.layers _ (Or.inl rfl) l hl x hx
  · rw [hlayer] at hx ⊢
    exact h.older_layers c hc l hl x hx
  · rw [hlayer] at hx
    exact h.ready_now l hl x hx
  · rw [hlayer] at hx
    exact h.ready_durable l hl hbefore x hx

/-- A step on the log alone. -/
theorem Secured.wal_step (h : Secured M st) (hframe : ∀ name, name ≠ walName → M' name = M name)
    (hbefore : ∀ previous, st.phase ≠ .renamed previous) {log : Option WalLog} {phase : Phase}
    (hphase : phase = .idle ∨ ∃ previous, phase = .truncated previous)
    (holder : ∀ x, (M' walName).older x → x = none)
    (hnow : ∀ p, (M' walName).Current (some p) →
      ∃ l, Stage.MayLog ⟨st.catalog, log, st.ready, phase⟩ l ∧ l.Survives p) :
    Secured M' ⟨st.catalog, log, st.ready, phase⟩ := by
  have hlayer : ∀ l : Layer, M' l.name = M l.name := fun l ↦
    hframe _ (Layer.name_ne not_isSegmentName_walName)
  have hmanifest : M' manifestName = M manifestName := hframe _ (by decide)
  refine h.catalog_kept hmanifest hlayer hbefore ?_ holder hnow ?_
  · rcases hphase with rfl | ⟨previous, rfl⟩ <;> simp
  · rcases hphase with rfl | ⟨previous, rfl⟩ <;> simp

/-- A step on the temporary file of a target alone. -/
theorem Secured.temporary_step (h : Secured M st) (target : Target)
    (hframe : ∀ name, name ≠ temporaryName (st.catalog.pathOf target) → M' name = M name)
    (hbefore : st.phase = .idle ∨ ∃ content, st.phase = .staging target content) {phase : Phase}
    (hphase : (∃ content, phase = .staging target content) ∨ ∃ content,
      phase = .sealed target content ∧
      ∀ x, (M' (temporaryName (st.catalog.pathOf target))).Current x → x = some content) :
    Secured M' ⟨st.catalog, st.log, st.ready, phase⟩ := by
  have hne := st.catalog.temporaryName_pathOf_ne target
  have hrenamed : ∀ previous, st.phase ≠ .renamed previous := by
    rcases hbefore with hp | ⟨content, hp⟩ <;> simp [hp]
  have htruncated : ∀ previous, st.phase ≠ .truncated previous := by
    rcases hbefore with hp | ⟨content, hp⟩ <;> simp [hp]
  have hlayer : ∀ l : Layer, M' l.name = M l.name := fun l ↦ hframe _ (l.name_ne_temporaryName _)
  have hmanifest : M' manifestName = M manifestName := hframe _ hne.2.symm
  have hwal : M' walName = M walName := hframe _ hne.1.symm
  refine h.catalog_kept hmanifest hlayer hrenamed ?_ (fun x hx ↦ ?_) (fun p hp ↦ ?_)
    fun target' content hsealed ↦ ?_
  · rcases hphase with ⟨content, rfl⟩ | ⟨content, rfl, -⟩ <;> simp
  · rw [hwal] at hx
    exact h.wal_older x hx
  · rw [hwal] at hp
    obtain ⟨log, hlog, hsurvives⟩ := h.wal_now p hp
    exact ⟨log, Or.inl (hlog.resolve_right (htruncated log)), hsurvives⟩
  · rcases hphase with ⟨content', rfl⟩ | ⟨content', rfl, hcurrent⟩
    · cases hsealed
    · obtain ⟨rfl, rfl⟩ := Phase.sealed.inj hsealed
      exact hcurrent

/-- What a synchronized file may show is what it holds. -/
theorem current_sync (hmatch : M.Matches files) {name content : Bytes}
    (hfile : files.find? name = some content) {x : Option Bytes}
    (hx : (M.apply (.fsync name) name).Current x) : x = some content := by
  obtain ⟨f, hf, hcontent⟩ := hmatch.exists_file hfile
  have hsynced : (M.apply (.fsync name) name).file = some f.sync := by
    rw [Medium.apply_fsync, Slot.rewrite, hf, Option.map_some]
  obtain ⟨found, hfound, rfl⟩ := (Slot.current_of_file hsynced).1 hx
  rw [← hcontent]
  exact congrArg some hfound

section Log

variable {c : Catalog} {log log' : WalLog} {ready : Option Layer} {phase : Phase}

theorem Secured.createWal (h : Secured M ⟨c, none, none, .idle⟩) (hmatch : M.Matches files)
    (hholds : Holds files ⟨c, none, none, .idle⟩) :
    Secured (M.apply (.create walName)) ⟨c, some .empty, none, .idle⟩ := by
  have hnone : (M walName).file = none :=
    Option.map_eq_none_iff.1 ((hmatch walName).trans hholds.wal_file)
  refine h.wal_step (Medium.apply_of_ne (by simp [Step.touches]) (by simp) (by simp)) (by simp)
    (Or.inl rfl) ?_ ?_
  · intro x hx
    rw [Medium.apply_create hnone] at hx
    rcases hx with holder | hnow
    · exact h.wal_older x holder
    · exact (Slot.current_of_no_file hnone).1 hnow
  · intro p hp
    rw [Medium.apply_create hnone] at hp
    obtain ⟨f, hf, hfound⟩ := Slot.current_some.1 hp
    obtain rfl : Stored.new = f := Option.some.inj hf
    obtain rfl : p = [] := hfound
    exact ⟨.empty, Or.inl rfl, WalLog.empty.survives_bytes⟩

theorem Secured.appendWal (h : Secured M ⟨c, some log, ready, .idle⟩) (hmatch : M.Matches files)
    (hholds : Holds files ⟨c, some log, ready, .idle⟩) {piece : Bytes}
    (hbytes : log'.bytes = log.bytes ++ piece) (hrecords : log.records <+: log'.records)
    (hsynced : log'.synced = log.synced) (holder : log'.older = log.older) :
    Secured (M.apply (.append walName piece)) ⟨c, some log', ready, .idle⟩ := by
  refine h.wal_step (Medium.apply_of_ne (by simp [Step.touches]) (by simp) (by simp)) (by simp)
    (Or.inl rfl) ?_ ?_
  · intro x hx
    rw [Medium.apply_append] at hx
    exact h.wal_older x hx
  · intro p hp
    rw [Medium.apply_append] at hp
    obtain ⟨f, hf, hfound⟩ := Slot.current_rewrite.1 hp
    obtain ⟨f', hf', hcontent⟩ := hmatch.exists_file hholds.wal_file
    obtain rfl := Option.some.inj (hf.symm.trans hf')
    refine ⟨log', Or.inl rfl, WalLog.survives_append hbytes hrecords hsynced holder ?_⟩
    rcases hfound with hfound | ⟨q, hq, rfl⟩
    · obtain ⟨l, hl | hl, hsurvives⟩ := h.wal_now p (Slot.current_some.2 ⟨f, hf, hfound⟩)
      · obtain rfl := Option.some.inj hl
        exact Or.inl hsurvives
      · cases hl
    · exact Or.inr ⟨q, hq, by rw [hcontent]⟩

/-- Until it is synchronized, a truncation may be undone. -/
theorem Secured.truncateWal (h : Secured M ⟨c, some log, ready, .idle⟩) (hmatch : M.Matches files)
    (hholds : Holds files ⟨c, some log, ready, .idle⟩) {size : ℕ}
    (hbytes : log'.bytes = log.bytes.take size) :
    Secured (M.apply (.truncate walName size)) ⟨c, some log', ready, .truncated log⟩ := by
  refine h.wal_step (Medium.apply_of_ne (by simp [Step.touches]) (by simp) (by simp)) (by simp)
    (Or.inr ⟨log, rfl⟩) ?_ ?_
  · intro x hx
    rw [Medium.apply_truncate] at hx
    exact h.wal_older x hx
  · intro p hp
    rw [Medium.apply_truncate] at hp
    obtain ⟨f, hf, hfound⟩ := Slot.current_rewrite.1 hp
    obtain ⟨f', hf', hcontent⟩ := hmatch.exists_file hholds.wal_file
    obtain rfl := Option.some.inj (hf.symm.trans hf')
    rcases hfound with hfound | rfl
    · obtain ⟨l, hl | hl, hsurvives⟩ := h.wal_now p (Slot.current_some.2 ⟨f, hf, hfound⟩)
      · obtain rfl := Option.some.inj hl
        exact ⟨log, Or.inr rfl, hsurvives⟩
      · cases hl
    · refine ⟨log', Or.inl rfl, ?_⟩
      rw [hcontent, ← hbytes]
      exact log'.survives_bytes

theorem Secured.syncWal (h : Secured M ⟨c, some log, ready, phase⟩) (hmatch : M.Matches files)
    (hholds : Holds files ⟨c, some log, ready, phase⟩)
    (hphase : ∀ previous, phase ≠ .renamed previous) :
    Secured (M.apply (.fsync walName)) ⟨c, some log.synchronized, ready, .idle⟩ := by
  refine h.wal_step (Medium.apply_of_ne (by simp [Step.touches]) (by simp) (by simp)) hphase
    (Or.inl rfl) ?_ ?_
  · intro x hx
    rw [Medium.apply_fsync] at hx
    exact h.wal_older x hx
  · intro p hp
    obtain rfl := Option.some.inj (current_sync hmatch hholds.wal_file hp)
    exact ⟨log.synchronized, Or.inl rfl, log.synchronized.survives_bytes⟩

end Log

section Publication

variable {c : Catalog} {log : Option WalLog} {ready : Option Layer}

theorem Secured.sealFile {target : Target} {content : Bytes}
    (h : Secured M ⟨c, log, ready, .staging target content⟩) (hmatch : M.Matches files)
    (hholds : Holds files ⟨c, log, ready, .staging target content⟩) :
    Secured (M.apply (.fsync (temporaryName (c.pathOf target)))) ⟨c, log, ready,
      .sealed target content⟩ := by
  refine h.temporary_step target (Medium.apply_of_ne (by simp [Step.touches]) (by simp) (by simp))
    (Or.inr ⟨content, rfl⟩) (Or.inr ⟨content, rfl, fun x hx ↦ ?_⟩)
  exact current_sync hmatch (hholds.staged_file target content (Or.inl rfl)) hx

/-- **A segment in its place**: it is whole, and its name is not durable yet. -/
theorem Secured.placeSegment {l : Layer} (hnumber : l.number = c.generation + 1)
    (h : Secured M ⟨c, log, ready, .sealed .segment (segmentBytes l.blocks)⟩)
    (hmatch : M.Matches files)
    (hholds : Holds files ⟨c, log, ready, .sealed .segment (segmentBytes l.blocks)⟩) :
    Secured (M.apply (.rename (temporaryName (c.pathOf .segment)) (c.pathOf .segment)))
      ⟨c, log, some l, .renamed c⟩ := by
  obtain ⟨f, hf, -⟩ := hmatch.exists_file (hholds.staged_file .segment _ (Or.inr rfl))
  have hne := c.temporaryName_pathOf_ne .segment
  have hname : l.name = c.pathOf .segment := by rw [Layer.name, hnumber]; rfl
  have hframe : ∀ name, name ≠ temporaryName (c.pathOf .segment) → name ≠ l.name →
      M.apply (.rename (temporaryName (c.pathOf .segment)) (c.pathOf .segment)) name = M name :=
    fun name h₁ h₂ ↦ by
      rw [hname] at h₂
      exact Medium.apply_of_notMem (by simp [Step.touches, h₁, h₂]) (by simp) (by simp)
  have hmanifest := hframe manifestName hne.2.symm
    (Layer.name_ne not_isSegmentName_manifestName).symm
  have hwal := hframe walName hne.1.symm (Layer.name_ne not_isSegmentName_walName).symm
  have hlists : ∀ c', Stage.Lists ⟨c, log, some l, .renamed c⟩ c' → c' = c := by
    rintro c' (rfl | hc)
    · rfl
    · exact (Phase.renamed.inj hc).symm
  -- no catalog that may be found has a layer of that number
  have hother : ∀ c' : Catalog, c'.generation ≤ c.generation → ∀ k ∈ c'.layers,
      M.apply (.rename (temporaryName (c.pathOf .segment)) (c.pathOf .segment)) k.name =
        M k.name := by
    intro c' hle k hk
    refine hframe _ (k.name_ne_temporaryName _) fun heq ↦ ?_
    have hk' := (c'.numbered k hk).2
    have heq' := segmentFilename_injective heq
    omega
  refine ⟨fun x hx ↦ ?_, fun x hx ↦ ?_, fun c' hc ↦ ?_, fun c' hc k hk x hx ↦ ?_,
    fun c' hc k hk x hx ↦ ?_, fun k hk x hx ↦ ?_, fun k _ hdurable ↦ absurd rfl (hdurable c),
    fun x hx ↦ ?_, fun p hp ↦ ?_, by simp⟩
  · rw [hmanifest] at hx
    exact h.manifest_now x hx
  · rw [hmanifest] at hx
    obtain ⟨c', (hc | hc) | hc, hfile⟩ := h.manifest_older x hx
    · exact ⟨c', Or.inl (Or.inl hc), hfile⟩
    · cases hc
    · exact ⟨c', Or.inr hc, hfile⟩
  · exact h.generation_le c' (hc.imp_left fun hc ↦ Or.inl (hlists c' hc))
  · obtain rfl := hlists c' hc
    rw [hother c' (le_refl _) k hk] at hx
    exact h.layers _ (Or.inl rfl) k hk x hx
  · rw [hother c' (h.generation_le c' (Or.inr hc)) k hk] at hx ⊢
    exact h.older_layers c' hc k hk x hx
  · obtain rfl : l = k := by simpa using hk
    rw [hname, Medium.apply_rename hf (by rw [← hname]; exact l.name_ne_temporaryName _)] at hx
    obtain ⟨found, hfound, rfl⟩ := (Slot.current_of_file rfl).1 hx
    exact h.sealed_now _ _ rfl _ (Slot.current_some.2 ⟨f, hf, hfound⟩)
  · rw [hwal] at hx
    exact h.wal_older x hx
  · rw [hwal] at hp
    obtain ⟨log', hlog | hlog, hsurvives⟩ := h.wal_now p hp
    · exact ⟨log', Or.inl hlog, hsurvives⟩
    · cases hlog

/-- **A manifest in its place**: the old one may still be found. -/
theorem Secured.publishManifest {l : Layer} {c' : Catalog}
    (hgeneration : c'.generation = c.generation + 1)
    (hlayers : c'.layers = c.layers ++ [l] ∨ c'.layers = [l]) (hdurable : c.older = [])
    (hdurable' : c'.older = [])
    (h : Secured M ⟨c, log, some l, .sealed .manifest (manifestBytes c'.manifest)⟩)
    (hmatch : M.Matches files)
    (hholds : Holds files ⟨c, log, some l, .sealed .manifest (manifestBytes c'.manifest)⟩) :
    Secured (M.apply (.rename (temporaryName (c.pathOf .manifest)) (c.pathOf .manifest)))
      ⟨c', log, none, .renamed c⟩ := by
  obtain ⟨f, hf, -⟩ := hmatch.exists_file (hholds.staged_file .manifest _ (Or.inr rfl))
  have hframe : ∀ name, name ≠ temporaryName manifestName → name ≠ manifestName →
      M.apply (.rename (temporaryName (c.pathOf .manifest)) (c.pathOf .manifest)) name = M name :=
    fun name h₁ h₂ ↦
      Medium.apply_of_notMem (by simp [Step.touches, Catalog.pathOf, h₁, h₂]) (by simp) (by simp)
  have hwal := hframe walName (by decide) (by decide)
  have hplace : M.apply (.rename (temporaryName (c.pathOf .manifest)) (c.pathOf .manifest))
    manifestName =
      (M manifestName).relink (some f) :=
    Medium.apply_rename hf (c.temporaryName_pathOf_ne .manifest).2.symm
  refine ⟨fun x hx ↦ ?_, fun x hx ↦ ?_, fun c₁ hc ↦ ?_, fun c₁ hc k hk x hx ↦ ?_, fun c₁ hc ↦ ?_,
    by simp, by simp, fun x hx ↦ ?_, fun p hp ↦ ?_, by simp⟩
  · rw [hplace] at hx
    obtain ⟨found, hfound, rfl⟩ := (Slot.current_of_file rfl).1 hx
    exact Or.inr (h.sealed_now _ _ rfl _ (Slot.current_some.2 ⟨f, hf, hfound⟩))
  · rw [hplace] at hx
    rcases hx with holder | hnow
    · obtain ⟨c₁, (hc | hc) | hc, hfile⟩ := h.manifest_older x holder
      · exact ⟨c₁, Or.inl (Or.inr (by rw [hc])), hfile⟩
      · cases hc
      · rw [show (Stage.catalog _).older = [] from hdurable] at hc
        cases hc
    · exact ⟨c, Or.inl (Or.inr rfl), h.manifest_now x hnow⟩
  · rcases hc with (rfl | hc) | hc
    · exact le_refl _
    · obtain rfl := Phase.renamed.inj hc
      exact Nat.le_of_succ_le hgeneration.ge
    · rw [show (Stage.catalog _).older = [] from hdurable'] at hc
      cases hc
  · rw [hframe _ (k.name_ne_temporaryName _) (Layer.name_ne not_isSegmentName_manifestName)] at hx
    have hold : k ∈ c.layers → x = some (segmentBytes k.blocks) := fun hk ↦
      h.layers c (Or.inl rfl) k hk x hx
    have hnew : k = l → x = some (segmentBytes k.blocks) := fun heq ↦
      h.ready_durable k (by rw [heq]) (by simp) x hx
    rcases hc with rfl | hc
    · rcases hlayers with hl | hl
      · rw [hl, List.mem_append, List.mem_singleton] at hk
        exact hk.elim hold hnew
      · rw [hl, List.mem_singleton] at hk
        exact hnew hk
    · obtain rfl := Phase.renamed.inj hc
      exact hold hk
  · rw [show (Stage.catalog _).older = [] from hdurable'] at hc
    cases hc
  · rw [hwal] at hx
    exact h.wal_older x hx
  · rw [hwal] at hp
    obtain ⟨log', hlog | hlog, hsurvives⟩ := h.wal_now p hp
    · exact ⟨log', Or.inl hlog, hsurvives⟩
    · cases hlog

/-- **A synchronization of the directory** leaves nothing old. -/
theorem Secured.syncDirectory {previous : Catalog}
    (h : Secured M ⟨c, log, ready, .renamed previous⟩) :
    Secured (M.apply .fsyncDir) ⟨c.settled, log, ready, .idle⟩ := by
  have hlists : ∀ c', Stage.Lists ⟨c.settled, log, ready, .idle⟩ c' → c' = c.settled := by
    rintro c' (rfl | hc)
    · rfl
    · cases hc
  refine ⟨h.manifest_now, fun x hx ↦ hx.elim, fun c' hc ↦ ?_, fun c' hc l hl x hx ↦ ?_,
    fun c' hc ↦ absurd hc List.not_mem_nil, h.ready_now, fun l hl _ x hx ↦ ?_, fun x hx ↦ hx.elim,
    fun p hp ↦ ?_, by simp⟩
  · rcases hc with hc | hc
    · rw [hlists c' hc]
    · cases hc
  · obtain rfl := hlists c' hc
    exact h.layers c (Or.inl rfl) l hl x (Or.inr (Slot.shows_settle.1 hx))
  · exact h.ready_now l hl x (Slot.shows_settle.1 hx)
  · obtain ⟨log', hlog | hlog, hsurvives⟩ := h.wal_now p hp
    · exact ⟨log', Or.inl hlog, hsurvives⟩
    · cases hlog

/-- A segment that is no longer live may be removed, and come back. -/
theorem Secured.removeFile {name : Bytes} (hname : IsSegmentName name)
    (hdead : name ∉ c.manifest.segmentFiles) (h : Secured M ⟨c, log, none, .idle⟩) :
    Secured (M.apply (.remove name)) ⟨c, log, none, .idle⟩ := by
  have hframe : ∀ other, other ≠ name → M.apply (.remove name) other = M other :=
    Medium.apply_of_ne (by simp [Step.touches]) (by simp) (by simp)
  have hmanifest := hframe manifestName fun heq ↦ not_isSegmentName_manifestName (heq ▸ hname)
  have hwal := hframe walName fun heq ↦ not_isSegmentName_walName (heq ▸ hname)
  refine ⟨fun x hx ↦ ?_, fun x hx ↦ ?_, h.generation_le, fun c' hc l hl x hx ↦ ?_,
    fun c' hc l hl x hx ↦ ?_, by simp, by simp, fun x hx ↦ ?_, fun p hp ↦ ?_, by simp⟩
  · rw [hmanifest] at hx
    exact h.manifest_now x hx
  · rw [hmanifest] at hx
    exact h.manifest_older x hx
  · have hlive : l ∈ c.layers := by
      rcases hc with rfl | hc
      · exact hl
      · cases hc
    rw [hframe _ fun heq ↦ hdead (heq ▸ List.mem_map_of_mem hlive)] at hx
    exact h.layers c (Or.inl rfl) l hlive x hx
  · by_cases hname : l.name = name
    · -- a layer of an older catalog may be removed
      subst hname
      rw [Medium.apply_remove] at hx ⊢
      rcases hx with hshows | hnone
      · exact (h.older_layers c' hc l hl x hshows).imp_right fun hx ↦ ⟨hx.1, rfl⟩
      · exact Or.inr ⟨(Slot.current_of_no_file rfl).1 hnone, rfl⟩
    · rw [hframe _ hname] at hx ⊢
      exact h.older_layers c' hc l hl x hx
  · rw [hwal] at hx
    exact h.wal_older x hx
  · rw [hwal] at hp
    exact h.wal_now p hp

end Publication

/-- **Moves keep what is secured.** -/
theorem Move.secured (hmove : Move st step st') (h : Secured M st) (hmatch : M.Matches files)
    (hholds : Holds files st) : Secured (M.apply step) st' := by
  cases hmove with
  | createWal => exact h.createWal hmatch hholds
  | appendWal hbytes hrecords hsynced holder =>
    exact h.appendWal hmatch hholds hbytes hrecords hsynced holder
  | syncWal => exact h.syncWal hmatch hholds (by simp)
  | @trimWal c ready log =>
    refine h.truncateWal hmatch hholds ?_
    rw [WalLog.bytes_trimmed, WalLog.bytes, List.take_left]
  | resetWal => exact h.truncateWal hmatch hholds rfl
  | settleWal => exact h.syncWal hmatch hholds (by simp)
  | stageFile target =>
    exact h.temporary_step target (Medium.apply_of_ne (by simp [Step.touches]) (by simp) (by simp))
      (Or.inl rfl) (Or.inl ⟨[], rfl⟩)
  | fillFile =>
    exact h.temporary_step _ (Medium.apply_of_ne (by simp [Step.touches]) (by simp) (by simp))
      (Or.inr ⟨_, rfl⟩) (Or.inl ⟨_, rfl⟩)
  | sealFile => exact h.sealFile hmatch hholds
  | placeSegment l hnumber => exact h.placeSegment hnumber hmatch hholds
  | publishManifest c' hgeneration hlayers hsame hdurable hdurable' =>
    exact h.publishManifest hgeneration hlayers hdurable hdurable' hmatch hholds
  | syncDirectory => exact h.syncDirectory
  | removeFile hname hdead => exact h.removeFile hname hdead

/-- **Giving up** what is under way keeps what is secured: what is not synchronized is remembered.
-/
theorem Secured.abandoned (h : Secured M st) (hmatch : M.Matches files) (hholds : Holds files st) :
    Secured M st.abandoned := by
  obtain ⟨c, log, ready, phase⟩ := st
  cases phase with
  | idle | staging target content | sealed target content =>
    refine ⟨h.manifest_now, fun x hx ↦ ?_, fun c' hc ↦ ?_, fun c' hc ↦ ?_, h.older_layers,
      by simp [Stage.abandoned], by simp [Stage.abandoned], h.wal_older, fun p hp ↦ ?_,
      by simp [Stage.abandoned]⟩
    · obtain ⟨c', hc, hfile⟩ := h.manifest_older x hx
      exact ⟨c', hc.imp_left fun hc ↦ Or.inl (hc.resolve_right (by simp)), hfile⟩
    · exact h.generation_le c' (hc.imp_left fun hc ↦
        Or.inl (hc.resolve_right (by simp [Stage.abandoned])))
    · exact h.layers c' (Or.inl (hc.resolve_right (by simp [Stage.abandoned])))
    · obtain ⟨l, hl, hsurvives⟩ := h.wal_now p hp
      exact ⟨l, Or.inl (hl.resolve_right (by simp)), hsurvives⟩
  | renamed previous =>
    refine ⟨h.manifest_now, fun x hx ↦ ?_, fun c' hc ↦ ?_, fun c' hc ↦ ?_, fun c' hc ↦ ?_,
      by simp [Stage.abandoned], by simp [Stage.abandoned], h.wal_older, fun p hp ↦ ?_,
      by simp [Stage.abandoned]⟩
    · obtain ⟨c', (rfl | hc) | hc, hfile⟩ := h.manifest_older x hx
      · exact ⟨_, Or.inl (Or.inl rfl), hfile⟩
      · obtain rfl := Phase.renamed.inj hc
        exact ⟨previous, Or.inr List.mem_cons_self, hfile⟩
      · exact ⟨c', Or.inr (List.mem_cons_of_mem _ hc), hfile⟩
    · rcases hc with (rfl | hc) | hc
      · exact le_refl _
      · cases hc
      · rcases List.mem_cons.1 hc with rfl | hc
        · exact h.generation_le c' (Or.inl (Or.inr rfl))
        · exact h.generation_le c' (Or.inr hc)
    · rcases hc with rfl | hc
      · exact h.layers c (Or.inl rfl)
      · cases hc
    · rcases List.mem_cons.1 hc with rfl | hc
      · exact fun l hl x hx ↦ Or.inl (h.layers c' (Or.inr rfl) l hl x hx)
      · exact h.older_layers c' hc
    · obtain ⟨l, hl, hsurvives⟩ := h.wal_now p hp
      exact ⟨l, Or.inl (hl.resolve_right (by simp)), hsurvives⟩
  | truncated previous =>
    refine ⟨h.manifest_now, fun x hx ↦ ?_, fun c' hc ↦ ?_, fun c' hc ↦ ?_, h.older_layers,
      by simp [Stage.abandoned], by simp [Stage.abandoned], h.wal_older, fun p hp ↦ ?_,
      by simp [Stage.abandoned]⟩
    · obtain ⟨c', hc, hfile⟩ := h.manifest_older x hx
      exact ⟨c', hc.imp_left fun hc ↦ Or.inl (hc.resolve_right (by simp)), hfile⟩
    · exact h.generation_le c' (hc.imp_left fun hc ↦
        Or.inl (hc.resolve_right (by simp [Stage.abandoned])))
    · exact h.layers c' (Or.inl (hc.resolve_right (by simp [Stage.abandoned])))
    · obtain ⟨f, hf, -⟩ := Slot.current_some.1 hp
      obtain ⟨log, rfl⟩ : ∃ l, log = some l := by
        have hfile : (M walName).file.map Stored.content = log.map WalLog.bytes :=
          (hmatch walName).trans hholds.wal_file
        cases log with
        | none => simp [hf] at hfile
        | some log => exact ⟨log, rfl⟩
      obtain ⟨l, hl | hl, hsurvives⟩ := h.wal_now p hp
      · obtain rfl := Option.some.inj hl
        exact ⟨_, Or.inl rfl, hsurvives.remember previous⟩
      · obtain rfl := Phase.truncated.inj hl
        exact ⟨_, Or.inl rfl, hsurvives.remembered log⟩

/-- **A run keeps what is secured.** -/
theorem Follows.secured {o : Origin} {log : List (Step Bytes UInt8)} (h : Follows o log st)
    (hstart : Secured (Medium.ofFiles o.files) o.stage) :
    Secured ((Medium.ofFiles o.files).applyAll log) st := by
  induction h with
  | start => exact hstart
  | @move log st st' step hf hmove ih =>
    rw [Medium.applyAll_concat]
    exact hmove.secured ih ((Medium.matches_ofFiles o.files).applyAll log) hf.holds
  | abandon hf ih => exact ih.abandoned ((Medium.matches_ofFiles o.files).applyAll _) hf.holds

end ChronoStore
