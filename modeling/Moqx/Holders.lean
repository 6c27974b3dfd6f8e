import Moqx.Keys
import Moqx.Lru

/-! Who holds which group: how each step changes the live writebacks, and that a writeback's
group is known under no other id than the one it holds it by. -/
namespace Moqx

open Moxygen Maps

variable [Moxygen] {c c' : Cache} {a : Act}

/-- A group number in use that is attached under no other id. -/
structure Cache.Named (c : Cache) (tref : TrackRef) (groupID : Nat) (ref : GroupRef) : Prop where
  lt : ref < (c.tracks tref).nextGroupRef
  named : ∀ g, (c.tracks tref).groups.lookup g = some ref → g = groupID

namespace Cache

variable {groupID : Nat} {ref : GroupRef} {tref : TrackRef}

theorem Named.of_lookup (hw : c.WF) (h : (c.tracks tref).groups.lookup groupID = some ref) :
    c.Named tref groupID ref :=
  ⟨hw.bounded tref groupID ref h, fun g hg => hw.groups_inj tref g groupID ref hg h⟩

/-- Group numbers are never given out twice. -/
theorem Named.of_prim (h : Prim c a c') (htref : tref < c.nextTrackRef)
    (hn : c.Named tref groupID ref) : c'.Named tref groupID ref := by
  refine ⟨Nat.lt_of_lt_of_le hn.lt (h.nextGroupRef_le htref), fun g hg => ?_⟩
  cases hs : a.isStructural with
  | false =>
    rw [(h.sameSkeleton hs).groups] at hg
    exact hn.named g hg
  | true =>
    cases h with
    | emplaceTrack ftn hl =>
      rw [emplaceTrack_tracks_eq, if_neg (Nat.ne_of_lt htref)] at hg
      exact hn.named g hg
    | eraseTrack => exact hn.named g hg
    | markEvicted ftn tr =>
      rw [markEvicted_groups] at hg
      exact hn.named g hg
    | emplaceGroup tr groupID' =>
      rcases lookup_setTrack_emplaceGroup c tr tref groupID' hg with ⟨-, -, rfl⟩ | hg
      · exact absurd hn.lt (Nat.lt_irrefl _)
      · exact hn.named g hg
    | evictGroup tr groupID' => exact hn.named g ((lookup_dropGroup c tr tref groupID' _).mp hg).1
    | _ => simp [Act.isStructural] at hs

theorem Named.of_acts {P : Cache → Act → Prop} (h : Acts P c c') (htref : tref < c.nextTrackRef)
    (hn : c.Named tref groupID ref) : c'.Named tref groupID ref := by
  have hkeep : tref < c'.nextTrackRef ∧ c'.Named tref groupID ref := by
    refine h.keeps (I := fun d => tref < d.nextTrackRef ∧ d.Named tref groupID ref) ?_ ⟨htref, hn⟩
    rintro d a d' - hprim ⟨hlt, hd⟩
    exact ⟨Nat.lt_of_lt_of_le hlt hprim.nextTrackRef_le, hd.of_prim hprim hlt⟩
  exact hkeep.2

end Cache

namespace FetchWriteback

variable {w w' : FetchWriteback}

theorem canEvict_of_lookup {t : CacheTrack} {key : AbsoluteLocation} {e : FetchInProgressEntry}
    (h : t.fetchesInProgress.lookup key = some e) : t.canEvict = false := by
  have hne : t.fetchesInProgress.entries ≠ [] := by
    intro hnil
    have hmem := AList.mem_lookup_iff.mp h
    rw [hnil] at hmem
    cases hmem
  simp [CacheTrack.canEvict, hne]

/-- The acts by which a writeback pins a group. -/
inductive PinAct (tref : TrackRef) : Act → Prop where
  | evictGroup (groupID : Nat) : PinAct tref (.evictGroup tref groupID)
  | emplaceGroup (groupID : Nat) : PinAct tref (.emplaceGroup tref groupID)
  | removeGroup (ref : GroupRef) : PinAct tref (.removeGroup tref ref)
  | register (loc : AbsoluteLocation) (entry : FetchInProgressEntry) :
      PinAct tref (.register tref loc entry)

theorem emplaceAndPinGroup_pins {loc : AbsoluteLocation} {entry : FetchInProgressEntry} :
    Spec (fun _ a => PinAct w.track a) c (w.emplaceAndPinGroup c loc entry) Prod.snd :=
  emplaceAndPinGroup_spec (fun _ g => .evictGroup g) (fun _ => .emplaceGroup _)
    (fun _ ref => .removeGroup ref) fun _ => .register loc entry

theorem register_sameLists (c : Cache) (tref : TrackRef) (loc : AbsoluteLocation)
    (entry : FetchInProgressEntry) : SameLists c (c.register tref loc entry) :=
  .of_update (.of_update rfl rfl rfl rfl rfl rfl) (Nat.le_refl _) rfl rfl rfl (fun _ => rfl)
    fun _ => rfl

theorem sameLists_refl (c : Cache) : SameLists c c :=
  .of_tracks (.refl c) (Nat.le_refl _) rfl rfl

/-- The cache when the registration under `key` is dropped: its progress may have been recorded. -/
def Recorded (c : Cache) (tref : TrackRef) (key : AbsoluteLocation) (d : Cache) : Prop :=
  d = c ∨ ∃ entry, d = c.register tref key entry

theorem Recorded.sameLists {tref : TrackRef} {key : AbsoluteLocation} {d : Cache}
    (h : Recorded c tref key d) : SameLists c d := by
  rcases h with rfl | ⟨entry, rfl⟩
  · exact sameLists_refl d
  · exact register_sameLists c tref key entry

/-- What `updateInProgress` does with the registration: nothing, keep it with new progress,
drop it, or move it. -/
inductive Updated (w : FetchWriteback) (c : Cache) : FetchWriteback → Cache → Prop where
  | unregistered {w' : FetchWriteback} (h : w.fetchInProgressIt = none)
      (h' : w'.fetchInProgressIt = none) : Updated w c w' c
  | stays {w' : FetchWriteback} {key : AbsoluteLocation} {entry : FetchInProgressEntry}
      (h : w.fetchInProgressIt = some key) (h' : w'.fetchInProgressIt = some key)
      (hpin : w'.pinnedGroup = w.pinnedGroup) : Updated w c w' (c.register w.track key entry)
  | dropped {w' : FetchWriteback} {key : AbsoluteLocation} {d : Cache}
      (h : w.fetchInProgressIt = some key) (h' : w'.fetchInProgressIt = none)
      (hd : Recorded c w.track key d) :
      Updated w c w' (d.releaseKey w.track w.ftn key w.pinnedGroup)
  | moved {v w' : FetchWriteback} {key loc : AbsoluteLocation} {entry : FetchInProgressEntry}
      {d c' : Cache} (h : w.fetchInProgressIt = some key) (htrack : v.track = w.track)
      (hd : Recorded c w.track key d)
      (hmove : v.emplaceAndPinGroup (d.releaseKey w.track w.ftn key w.pinnedGroup) loc entry =
        .ok (w', c')) (hne : loc ≠ key) : Updated w c w' c'

theorem updateInProgress_updated (h : w.updateInProgress c = .ok (w', c')) : Updated w c w' c' := by
  unfold updateInProgress eraseAndMakeGroupEvictable at h
  dsimp only at h
  split at h
  · next hkey =>
    cases h
    exact .unregistered hkey hkey
  · next key hkey hvalid =>
    cases h
    exact .dropped hkey rfl (.inl rfl)
  · next key hkey hvalid =>
    cases hl : (c.tracks w.track).fetchesInProgress.lookup key with
    | none => simp [hl] at h
    | some old =>
      simp only [hl] at h
      split_ifs at h with hgroup
      · refine .moved hkey ?_ (.inr ⟨_, rfl⟩) h fun heq => ?_
        · rfl
        · rw [heq] at hgroup
          exact Nat.lt_irrefl _ hgroup
      · cases h
        exact .dropped hkey rfl (.inr ⟨_, rfl⟩)
      · cases h
        exact .stays hkey hkey rfl

/-- A registered writeback pins the group of its key. -/
def PinNamed (w : FetchWriteback) (c : Cache) : Prop :=
  ∀ key, w.fetchInProgressIt = some key →
    ∃ ref, w.pinnedGroup = some ref ∧ c.Named w.track key.group ref

theorem PinNamed.of_acts {P : Cache → Act → Prop} (h : Acts P c c')
    (htref : w.track < c.nextTrackRef) (hp : w.PinNamed c) : w.PinNamed c' := by
  intro key hkey
  obtain ⟨ref, hpin, hn⟩ := hp key hkey
  exact ⟨ref, hpin, hn.of_acts h htref⟩

theorem PinNamed.sameKey (h : SameKey w w') (hp : w.PinNamed c) : w'.PinNamed c := by
  intro key hkey
  rw [h.fetchInProgressIt] at hkey
  obtain ⟨ref, hpin, hn⟩ := hp key hkey
  exact ⟨ref, by rw [h.pinnedGroup]; exact hpin, by rw [h.track]; exact hn⟩

theorem emplaceAndPinGroup_pinNamed {loc : AbsoluteLocation} {entry : FetchInProgressEntry}
    (hw : c'.WF) (h : w.emplaceAndPinGroup c loc entry = .ok (w', c')) : w'.PinNamed c' := by
  obtain ⟨ref, rfl, hlook, -⟩ := emplaceAndPinGroup_result h
  intro key hkey
  cases hkey
  exact ⟨ref, rfl, .of_lookup hw hlook⟩

theorem updateInProgress_pinNamed (hw : c'.WF) (hp : w.PinNamed c)
    (h : w.updateInProgress c = .ok (w', c')) : w'.PinNamed c' := by
  have htrack := (updateInProgress_sameOwner h).track
  cases updateInProgress_updated h with
  | unregistered hk hk' | dropped hk hk' hd =>
    intro key hkey
    rw [hk'] at hkey
    cases hkey
  | stays hk hk' hpin =>
    next key₀ entry =>
    intro key hkey
    rw [hk'] at hkey
    obtain ⟨ref, hr, hn⟩ := hp key (hk.trans hkey)
    have hsame := register_sameLists c w.track key₀ entry
    refine ⟨ref, by rw [hpin]; exact hr, ?_, fun g hg => ?_⟩
    · rw [hsame.nextGroupRef, htrack]
      exact hn.lt
    · rw [hsame.groups, htrack] at hg
      exact hn.named g hg
  | moved hk htr hd hmove => exact emplaceAndPinGroup_pinNamed hw hmove

/-- A delivery leaves a registered writeback with the group of its key. -/
theorem deliver_pinNamed {now : TimePoint} {delivery : Delivery} {res : Expected Unit}
    {calls : List FetchCall} (hc : c.WF) (htref : w.track < c.nextTrackRef) (hp : w.PinNamed c)
    (h : w.deliver c now delivery = .ok (res, calls, w', c')) : w'.PinNamed c' := by
  cases Shape.of_deliver (hc.bounded _) h with
  | quiet hd hw => exact (hp.of_acts hd.acts htref).sameKey hw
  | updated hd hw hup hd' hw' =>
    next d d₂ w₁ w₂ =>
    have hbody := Cache.Grows.of_steps hd hc
    have hbefore : w₁.PinNamed d := (hp.of_acts hd.acts htref).sameKey hw
    have hmid := Cache.Grows.of_steps (updateInProgress_steps hup) hbody.wf
    have hafter := updateInProgress_pinNamed hmid.wf hbefore hup
    refine (hafter.of_acts hd'.acts ?_).sameKey hw'
    rw [(updateInProgress_sameOwner hup).track, hw.track]
    exact Nat.lt_of_lt_of_le htref (Nat.le_trans hbody.tracks hmid.tracks)

end FetchWriteback

namespace World

variable {w w' : World} {op : Op}

/-- A fetch coroutine leaves the subgroups alone. -/
theorem resumeTask_frame {id : ConsumerId} {task : FetchTask} {with_ : Resume}
    (h : w.resumeTask id task with_ = .ok w') :
    w'.subgroups = w.subgroups := by
  unfold resumeTask at h
  split at h
  · cases h
    rfl
  · obtain ⟨r, -, h⟩ := bind_eq_ok.mp h
    cases h
    rfl
  · split at h
    · obtain ⟨r, -, h⟩ := bind_eq_ok.mp h
      cases h
      rfl
    · cases h
  · obtain ⟨r, -, h⟩ := bind_eq_ok.mp h
    cases h
    rfl
  · obtain ⟨r, -, h⟩ := bind_eq_ok.mp h
    cases h
    rfl
  · obtain ⟨wb, -, h⟩ := bind_eq_ok.mp h
    obtain ⟨r, -, h⟩ := bind_eq_ok.mp h
    cases h
    rfl
  · obtain ⟨r, -, h⟩ := bind_eq_ok.mp h
    cases h
    rfl
  · cases h
    rfl
  · cases h

/-- Where a subgroup writeback comes from: it was there, or it was just opened on an unmarked
group. -/
inductive SubgroupStep (w : World) (op : Op) (w' : World) (id : Nat) (sub' : SubgroupWriteback) :
    Prop where
  | kept {sub : SubgroupWriteback} (h : w.subgroups.lookup id = some sub)
      (hsame : sub.SameGroup sub')
  | opened {sid groupID subgroupID : Nat} {downstream : Expected Unit} {s : SubscribeWriteback}
      (hop : op = .beginSubgroup sid groupID subgroupID downstream)
      (hs : w.subscribers.lookup sid = some s) (hid : id = w.nextId)
      (h : s.beginSubgroup w.cache groupID subgroupID downstream = .ok (.ok (some sub'), w'.cache))

theorem step_subgroup {id : Nat} {sub' : SubgroupWriteback} (h : w.step op = .ok w')
    (hl : w'.subgroups.lookup id = some sub') : SubgroupStep w op w' id sub' := by
  have hkept : w'.subgroups = w.subgroups → SubgroupStep w op w' id sub' := by
    intro heq
    rw [heq] at hl
    exact .kept hl (.refl sub')
  cases op with
  | beginSubgroup sid groupID subgroupID downstream =>
    obtain ⟨s, hs, h⟩ := bind_eq_ok.mp h
    obtain ⟨⟨res, d⟩, hb, h⟩ := bind_eq_ok.mp h
    split at h
    · next sub e heq =>
      cases heq
      cases h
      rcases lookup_insert_some hl with ⟨rfl, rfl⟩ | ⟨-, hl⟩
      · exact .opened rfl (orNoCaller_eq_ok.mp hs) rfl hb
      · exact .kept hl (.refl sub')
    · cases h
      exact .kept hl (.refl sub')
  | writeSubgroup sid write =>
    obtain ⟨sub, hs, h⟩ := bind_eq_ok.mp h
    obtain ⟨⟨sub₁, d⟩, hp, h⟩ := bind_eq_ok.mp h
    cases h
    rcases lookup_insert_some hl with ⟨rfl, rfl⟩ | ⟨-, hl⟩
    · exact .kept (orNoCaller_eq_ok.mp hs) (SubgroupWriteback.perform_sameGroup hp)
    · exact .kept hl (.refl sub')
  | closeSubgroup sid =>
    obtain ⟨sub, hs, h⟩ := bind_eq_ok.mp h
    cases h
    exact .kept (lookup_erase_some hl).2 (.refl sub')
  | fetch f =>
    refine hkept ?_
    obtain ⟨⟨started, d⟩, -, h⟩ := bind_eq_ok.mp h
    split at h <;> cases h <;> rfl
  | resume cid with_ =>
    refine hkept ?_
    obtain ⟨task, -, h⟩ := bind_eq_ok.mp h
    exact resumeTask_frame h
  | cancel cid =>
    refine hkept ?_
    obtain ⟨task, -, h⟩ := bind_eq_ok.mp h
    cases h
    unfold cancelTask
    split <;> rfl
  | closeWriteback wid =>
    obtain ⟨wb, -, rfl⟩ := step_closeWriteback h
    exact hkept rfl
  | tick ns | setTrackExtensions ftn ext =>
    cases h
    exact hkept rfl
  | subscribe ftn =>
    obtain ⟨r, -, h⟩ := bind_eq_ok.mp h
    cases h
    exact hkept rfl
  | closeSubscribe sid =>
    obtain ⟨s, -, h⟩ := bind_eq_ok.mp h
    obtain ⟨d, -, h⟩ := bind_eq_ok.mp h
    cases h
    exact hkept rfl
  | objectStream sid header payload | datagram sid header payload =>
    obtain ⟨s, -, h⟩ := bind_eq_ok.mp h
    obtain ⟨r, -, h⟩ := bind_eq_ok.mp h
    cases h
    exact hkept rfl
  | purgeTrack ftn | purgeNamespace ns | purgeAll =>
    obtain ⟨d, -, h⟩ := bind_eq_ok.mp h
    cases h
    exact hkept rfl
  | deliver wid delivery =>
    obtain ⟨wb, -, h⟩ := bind_eq_ok.mp h
    obtain ⟨r, -, h⟩ := bind_eq_ok.mp h
    cases h
    exact hkept rfl

/-- Where a fetch writeback is made: for a track that was just cached, or on the way of a fetch
coroutine to its upstream. -/
inductive CreatedIn (w : World) (op : Op) (tref : TrackRef) : Cache → Prop where
  | fetched {f : Fetch} {d : Cache} (hop : op = .fetch f) (htref : tref = w.cache.nextTrackRef)
      (hnone : w.cache.cache.lookup f.fullTrackName = none)
      (hroom : (w.cache.emplaceTrack f.fullTrackName).makeRoomForTrack = .ok d) :
      CreatedIn w op tref (d.addTrackToLRU f.fullTrackName tref)
  | resumed {id : ConsumerId} {with_ : Resume} {task : FetchTask} (hop : op = .resume id with_)
      (ht : w.tasks.lookup id = some task) (hspan : task.pc.nextSpan.isSome = true)
      (htref : tref = task.track) : CreatedIn w op tref w.cache

/-- Where a fetch writeback comes from: it was there, something was delivered to it, or it was
just made. -/
inductive WritebackStep (w : World) (op : Op) (w' : World) (id : WritebackId)
    (wb' : FetchWriteback) : Prop where
  | kept (h : w.writebacks.lookup id = some wb') (hop : ∀ delivery, op ≠ .deliver id delivery)
  | delivered {wb : FetchWriteback} {delivery : Delivery} {res : Expected Unit}
      {calls : List FetchCall} (hop : op = .deliver id delivery)
      (h : w.writebacks.lookup id = some wb)
      (hd : wb.deliver w.cache w.now delivery = .ok (res, calls, wb', w'.cache))
  | created {d : Cache} {start stop : AbsoluteLocation} {proxyFin : Bool} {consumer : ConsumerId}
      {it : FetchRangeIterator} {tref : TrackRef} {ftn : FullTrackName} (hid : id = w.nextId)
      (hd : Steps (fun _ a => a.isListing = false) w.cache d) (hin : CreatedIn w op tref d)
      (h : FetchWriteback.create d w.nextId start stop proxyFin consumer it tref ftn =
        .ok (wb', w'.cache))

theorem step_writeback {id : WritebackId} {wb' : FetchWriteback} (h : w.step op = .ok w')
    (hl : w'.writebacks.lookup id = some wb') : WritebackStep w op w' id wb' := by
  cases hop : op.usesKeys with
  | false =>
    rw [step_writebacks hop h] at hl
    refine .kept hl fun delivery heq => ?_
    rw [heq] at hop
    cases hop
  | true =>
    cases op with
    | fetch f =>
      rcases fetch_cases h with ⟨-, hwbs⟩ | ⟨d, wb, hnone, hroom, hcreate, hwbs⟩
      · rw [hwbs] at hl
        exact .kept hl (by simp)
      · rw [hwbs] at hl
        rcases lookup_insert_some hl with ⟨rfl, rfl⟩ | ⟨-, hl⟩
        · refine .created rfl ?_ (.fetched rfl rfl hnone hroom) hcreate
          have hspec : Spec (fun _ a => a.isListing = false) (w.cache.emplaceTrack f.fullTrackName)
              (w.cache.emplaceTrack f.fullTrackName).makeRoomForTrack id :=
            Cache.makeRoomForTrack_spec fun d a ha => by
              cases a <;> first | exact False.elim ha | rfl
          refine Steps.trans (.single rfl (.emplaceTrack w.cache f.fullTrackName hnone)) ?_
          exact (hspec.steps hroom).trans (.single rfl (.addTrack d _ _))
        · exact .kept hl (by simp)
    | resume cid with_ =>
      obtain ⟨task, ht, -⟩ := bind_eq_ok.mp h
      have ht := orNoCaller_eq_ok.mp ht
      cases hspan : task.pc.nextSpan with
      | none =>
        rw [resume_writebacks ht hspan h] at hl
        exact .kept hl (by simp)
      | some span =>
        obtain ⟨stop, lastObject, wb, -, hcreate, hwbs⟩ := resume_creates ht hspan h
        rw [hwbs] at hl
        rcases lookup_insert_some hl with ⟨rfl, rfl⟩ | ⟨-, hl⟩
        · exact .created rfl .refl (.resumed rfl ht (by rw [hspan]; rfl) rfl) hcreate
        · exact .kept hl (by simp)
    | deliver wid delivery =>
      obtain ⟨wb, res, calls, wb₁, d, hwb, hd, rfl⟩ := step_deliver h
      rcases lookup_insert_some hl with ⟨rfl, rfl⟩ | ⟨hne, hl⟩
      · exact .delivered rfl hwb hd
      · refine .kept hl fun _ heq => ?_
        cases heq
        exact hne rfl
    | closeWriteback wid =>
      obtain ⟨wb, -, rfl⟩ := step_closeWriteback h
      exact .kept (lookup_erase_some hl).2 (by simp)
    | _ => simp [Op.usesKeys] at hop

/-- Every writeback's group is known under the id it holds it by. -/
structure NamesOk (w : World) : Prop where
  subgroups : All w.subgroups fun _ sub => w.cache.Named sub.track sub.group sub.groupRef
  writebacks : All w.writebacks fun _ wb => wb.PinNamed w.cache

theorem NamesOk.step (hw : w.WF) (hn : w.NamesOk) (h : w.step op = .ok w') : w'.NamesOk := by
  have hw' := hw.step h
  have hsteps := hw.steps h
  refine ⟨fun id sub' hl => ?_, fun id wb' hl => ?_⟩
  · cases step_subgroup h hl with
    | kept hsub hsame =>
      obtain ⟨h1, h2, h3, -⟩ := hsame
      rw [h1, h2, h3]
      exact (hn.subgroups id _ hsub).of_acts hsteps.acts (hw.subgroups id _ hsub).1.lt
    | opened hop hs hid hb =>
      obtain ⟨htrack, -, hgroup, -, d, hget, hd⟩ := SubscribeWriteback.beginSubgroup_result hb
      have hlook := (Cache.getOrCreateGroupWithEviction_result hget).1
      rw [← (Cache.takeGroupFromLRU_maps d _ _ sub'.groupRef).1, ← hd, ← htrack, ← hgroup] at hlook
      exact .of_lookup hw'.cache hlook
  · cases step_writeback h hl with
    | kept hwb hop =>
      exact (hn.writebacks id _ hwb).of_acts hsteps.acts (hw.writebacks id _ hwb).1.lt
    | delivered hop hwb hd =>
      exact FetchWriteback.deliver_pinNamed hw.cache (hw.writebacks id _ hwb).1.lt
        (hn.writebacks id _ hwb) hd
    | created hid hd hin hcreate =>
      obtain ⟨v, -, hmove⟩ := FetchWriteback.create_emplaces hcreate
      exact FetchWriteback.emplaceAndPinGroup_pinNamed hw'.cache hmove

theorem Reaches.namesOk {Q : World → Op → Prop} (h : Reaches Q w) : w.NamesOk := by
  refine h.keeps (I := NamesOk) ?_ fun w op w' hw _ hstep hn => hn.step hw hstep
  intro tracks groups bytes minBytes default_ allowed
  exact ⟨all_empty, all_empty⟩

end World

end Moqx
