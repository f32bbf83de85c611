import Nexios.Sched.ReadyQueue

/-!
# The deadline-ordered lists

One list per CPU, linked through the task control blocks. The order is a parameter: `earlier t u`
says that `t` has to stand before `u`. Like the queues, the lists own their part of the control
blocks, here the links and `in_edf_queue_`.
-/

open Function Option List

namespace Nexios.Sched

variable {n k : ℕ}

structure EdfLists (n k : ℕ) where
  links : Links (Fin n)
  inEdfQueue : Fin n → Bool
  head : Cpu k → Option (Fin n)

namespace EdfLists

variable {e e' : EdfLists n k} {c : Cpu k} {t u : Fin n} {earlier : Fin n → Fin n → Bool}

/-- `edf_insert`: the task goes before the first one it is earlier than. -/
def insert (e : EdfLists n k) (earlier : Fin n → Fin n → Bool) (c : Cpu k) (t : Fin n) :
    Option (EdfLists n k) :=
  if e.inEdfQueue t then some e
  else do
    let (prev, _) ← e.links.seek (earlier t) n none (e.head c)
    let links := e.links.setPrev t prev
    let (links, head) : Links (Fin n) × Option (Fin n) :=
      match prev with
      | some y => ((links.setNext t (links.next y)).setNext y (some t), e.head c)
      | none => (links.setNext t (e.head c), some t)
    some
      { links := links.setPrevAt (links.next t) (some t)
        inEdfQueue := update e.inEdfQueue t true
        head := update e.head c head }

def remove (e : EdfLists n k) (c : Cpu k) (t : Fin n) : EdfLists n k :=
  if e.inEdfQueue t then
    { links := e.links.unlink t
      inEdfQueue := update e.inEdfQueue t false
      head := if (e.links.prev t).isSome then e.head
        else update e.head c (e.links.next t) }
  else e

def resort (e : EdfLists n k) (earlier : Fin n → Fin n → Bool) (c : Cpu k) (t : Fin n) :
    Option (EdfLists n k) :=
  if e.inEdfQueue t then (e.remove c t).insert earlier c t else some e

/-- `edf_peek_valid_own`: heads that are not `valid` are dropped. -/
def peekValid (valid : Fin n → Bool) (c : Cpu k) :
    ℕ → EdfLists n k → Option (EdfLists n k × Option (Fin n))
  | fuel, e =>
    match e.head c with
    | none => some (e, none)
    | some t =>
      if valid t then some (e, some t)
      else
        match fuel with
        | 0 => none
        | fuel + 1 => peekValid valid c fuel (e.remove c t)

/-! ## Contents -/

/-- The lists hold `L`; a queued task stands in the list of its CPU, and the lists are in order. -/
structure Shape (home : Fin n → Cpu k) (le : Fin n → Fin n → Prop) (e : EdfLists n k)
    (L : Cpu k → List (Fin n)) : Prop where
  lists : Links.Lists e.links e.head L
  flag : ∀ t, e.inEdfQueue t = true ↔ ∃ c, t ∈ L c
  place : ∀ c t, t ∈ L c → c = home t
  sorted : ∀ c, (L c).Pairwise le

/-- The comparison of the insertion decides the order `le`. -/
structure Decides (earlier : Fin n → Fin n → Bool) (le : Fin n → Fin n → Prop) : Prop where
  before : ∀ t u, earlier t u → le t u
  after : ∀ t u, earlier t u = false → le u t
  trans : ∀ t u v, le t u → le u v → le t v

variable {home : Fin n → Cpu k} {le : Fin n → Fin n → Prop} {L : Cpu k → List (Fin n)}

theorem pairwise_insert {l₁ l₂ : List (Fin n)} (hd : Decides earlier le)
    (hl : (l₁ ++ l₂).Pairwise le) (hbefore : ∀ y ∈ l₁, earlier t y = false)
    (hat : ∀ y, l₂.head? = some y → earlier t y) : (l₁ ++ t :: l₂).Pairwise le := by
  obtain ⟨h₁, h₂, hcross⟩ := pairwise_append.mp hl
  have hafter : ∀ y ∈ l₂, le t y := by
    cases l₂ with
    | nil => simp
    | cons z l =>
      have htz := hd.before t z (hat z rfl)
      intro y hy
      rcases mem_cons.mp hy with rfl | hy
      · exact htz
      · exact hd.trans t z y htz (rel_of_pairwise_cons h₂ hy)
  refine pairwise_append.mpr ⟨h₁, pairwise_cons.mpr ⟨hafter, h₂⟩, ?_⟩
  intro x hx y hy
  rcases mem_cons.mp hy with rfl | hy
  · exact hd.after y x (hbefore x hx)
  · exact hcross x hx y hy

theorem remove_of_not_queued (hflag : e.inEdfQueue t = false) : e.remove c t = e := by
  unfold EdfLists.remove
  rw [if_neg (by simp [hflag])]

section

variable (hs : Shape home le e L)
include hs

theorem Shape.mem_iff : t ∈ L c ↔ e.inEdfQueue t = true ∧ home t = c := by
  constructor
  · intro ht
    exact ⟨(hs.flag t).mpr ⟨c, ht⟩, (hs.place c t ht).symm⟩
  · rintro ⟨hflag, rfl⟩
    obtain ⟨c, hc⟩ := (hs.flag t).mp hflag
    exact hs.place c t hc ▸ hc

theorem Shape.not_mem (hflag : e.inEdfQueue t = false) (c : Cpu k) : t ∉ L c := by
  intro ht
  have htrue := (hs.flag t).mpr ⟨c, ht⟩
  rw [hflag] at htrue
  cases htrue

theorem Shape.length_le (c : Cpu k) : (L c).length ≤ n := by
  have hle := (hs.lists.nodup c).length_le_card
  rwa [Fintype.card_fin] at hle

theorem Shape.insert_eq (earlier : Fin n → Fin n → Bool) (c : Cpu k)
    (hflag : e.inEdfQueue t = false) : ∃ l₁ l₂, L c = l₁ ++ l₂ ∧ (∀ y ∈ l₁, earlier t y = false) ∧
      (∀ y, l₂.head? = some y → earlier t y) ∧
      e.insert earlier c t = some
        { links := e.links.insert l₁.getLast? t l₂.head?
          inEdfQueue := update e.inEdfQueue t true
          head := update e.head c (if l₁ = [] then some t else e.head c) } := by
  obtain ⟨l₁, l₂, hl, hseek, hbefore, hat⟩ := (hs.lists.seg c).seek_eq (earlier t) (hs.length_le c)
  refine ⟨l₁, l₂, hl, hbefore, hat, ?_⟩
  have hhead := hs.lists.head_eq c
  unfold EdfLists.insert
  rw [hflag, if_neg (by simp), hseek, or_none]
  cases hl₁ : l₁.getLast? with
  | none =>
    obtain rfl := List.getLast?_eq_none_iff.mp hl₁
    rw [hl, nil_append] at hhead
    have hnext : ((e.links.setPrev t none).setNext t (e.head c)).next t = l₂.head? := by
      rw [Links.setNext_next, if_pos rfl, hhead]
    simp only [bind_eq_bind, bind_some, hnext]
    rw [hhead]
    rfl
  | some y =>
    obtain ⟨m, rfl⟩ := List.getLast?_eq_some_iff.mp hl₁
    have hty : t ≠ y := by
      rintro rfl
      exact hs.not_mem hflag c (by simp [hl])
    have hy : e.links.next y = l₂.head? := by
      rw [append_assoc] at hl
      exact (hs.lists.links_eq hl).2
    have hnext : (((e.links.setPrev t (some y)).setNext t l₂.head?).setNext y (some t)).next t =
        l₂.head? := by
      rw [Links.setNext_next, if_neg hty, Links.setNext_next, if_pos rfl]
    simp only [bind_eq_bind, bind_some, Links.setPrev_next, hy, hnext]
    rw [if_neg (by simp)]
    rfl

theorem Shape.insert (hd : Decides earlier le) (hc : home t = c) :
    ∃ e' L', e.insert earlier c t = some e' ∧ Shape home le e' L' ∧
      e'.inEdfQueue = update e.inEdfQueue t true := by
  cases hflag : e.inEdfQueue t with
  | true =>
    refine ⟨e, L, ?_, hs, ?_⟩
    · unfold EdfLists.insert
      rw [if_pos hflag]
    · rw [← hflag, update_eq_self]
  | false =>
    obtain ⟨l₁, l₂, hl, hbefore, hat, heq⟩ := hs.insert_eq earlier c hflag
    have hmem : ∀ d u, u ∈ update L c (l₁ ++ t :: l₂) d ↔ u ∈ L d ∨ (d = c ∧ u = t) :=
      Links.Lists.mem_update_insert hl
    refine ⟨_, update L c (l₁ ++ t :: l₂), heq,
      ⟨hs.lists.insert hl (hs.not_mem hflag), ?_, ?_, ?_⟩, rfl⟩
    · intro u
      simp only [hmem]
      by_cases hu : u = t
      · subst hu
        simp
      · rw [update_of_ne hu, hs.flag]
        simp [hu]
    · intro d u hu
      rcases (hmem d u).mp hu with hu | ⟨rfl, rfl⟩
      · exact hs.place d u hu
      · exact hc.symm
    · refine (forall_update_iff L fun _ l => l.Pairwise le).mpr ⟨?_, fun d _ => hs.sorted d⟩
      have hsorted := hs.sorted c
      rw [hl] at hsorted
      exact pairwise_insert hd hsorted hbefore hat

theorem Shape.remove (hc : home t = c) :
    ∃ L', Shape home le (e.remove c t) L' ∧ ∀ rest, L c = t :: rest → L' c = rest := by
  cases hflag : e.inEdfQueue t with
  | false =>
    refine ⟨L, (remove_of_not_queued hflag).symm ▸ hs, ?_⟩
    intro rest hl
    exact absurd (hl ▸ mem_cons_self) (hs.not_mem hflag c)
  | true =>
    unfold EdfLists.remove
    rw [if_pos hflag]
    obtain ⟨l₁, l₂, hl⟩ := append_of_mem (hs.mem_iff.mpr ⟨hflag, hc⟩)
    have hprev := (hs.lists.links_eq hl).1
    have hnext := (hs.lists.links_eq hl).2
    have hmem : ∀ d u, u ∈ update L c (l₁ ++ l₂) d ↔ u ∈ L d ∧ u ≠ t :=
      hs.lists.mem_update_unlink hl
    have hsub : ∀ d, (update L c (l₁ ++ l₂) d).Sublist (L d) := by
      refine (forall_update_iff L fun d l => l.Sublist (L d)).mpr ⟨?_, fun _ _ => .refl _⟩
      rw [hl]
      exact .append_left (sublist_cons_self t l₂) l₁
    refine ⟨update L c (l₁ ++ l₂), ⟨?_, ?_, ?_, ?_⟩, ?_⟩
    · have hhead : (if (e.links.prev t).isSome then e.head
          else update e.head c (e.links.next t)) =
          update e.head c (if l₁ = [] then l₂.head? else e.head c) := by
        rw [hprev, hnext]
        cases l₁ with
        | nil => rfl
        | cons x l => simp [List.getLast?_cons]
      rw [hhead]
      exact hs.lists.unlink hl
    · intro u
      simp only [hmem]
      by_cases hu : u = t
      · subst hu
        simp
      · rw [update_of_ne hu, hs.flag]
        simp [hu]
    · exact fun d u hu => hs.place d u ((hmem d u).mp hu).1
    · exact fun d => (hs.sorted d).sublist (hsub d)
    · intro rest hrest
      rw [update_self]
      cases l₁ with rw [hl] at hrest
      | nil => exact (List.cons.inj hrest).2
      | cons x l =>
        obtain ⟨rfl, -⟩ := List.cons.inj hrest
        have hnodup := hs.lists.nodup c
        rw [hl, cons_append, nodup_cons] at hnodup
        exact absurd (mem_append_right _ mem_cons_self) hnodup.1

end

theorem remove_flag : (e.remove c t).inEdfQueue = update e.inEdfQueue t false := by
  unfold EdfLists.remove
  cases hflag : e.inEdfQueue t with
  | true => rfl
  | false =>
    rw [← hflag, update_eq_self, if_neg (by simp [hflag])]

/-! ## What the operations do to proper lists -/

def Good (home : Fin n → Cpu k) (le : Fin n → Fin n → Prop) (e : EdfLists n k) : Prop :=
  ∃ L, Shape home le e L

variable (hg : Good home le e)
include hg

theorem Good.insert (hd : Decides earlier le) (hc : home t = c) :
    ∃ e', e.insert earlier c t = some e' ∧ Good home le e' ∧
      e'.inEdfQueue = update e.inEdfQueue t true := by
  obtain ⟨L, hs⟩ := hg
  obtain ⟨e', L', he, hs', hflag⟩ := hs.insert hd hc
  exact ⟨e', he, ⟨L', hs'⟩, hflag⟩

theorem Good.remove (hc : home t = c) : Good home le (e.remove c t) := by
  obtain ⟨L, hs⟩ := hg
  obtain ⟨L', hs', -⟩ := hs.remove hc
  exact ⟨L', hs'⟩

theorem Good.resort (hd : Decides earlier le) (hc : home t = c) :
    ∃ e', e.resort earlier c t = some e' ∧ Good home le e' ∧ e'.inEdfQueue = e.inEdfQueue := by
  unfold EdfLists.resort
  split_ifs with hflag
  · obtain ⟨e', he, hg', hflag'⟩ := (hg.remove hc).insert hd hc
    refine ⟨e', he, hg', ?_⟩
    rw [hflag', remove_flag, update_idem, ← hflag, update_eq_self]
  · exact ⟨e, rfl, hg, rfl⟩

omit hg in
/-- The first task that is `valid` precedes all that are still queued on its CPU; only tasks that
are not `valid` have been dropped. -/
structure Peeked (home : Fin n → Cpu k) (le : Fin n → Fin n → Prop) (valid : Fin n → Bool)
    (c : Cpu k) (e e' : EdfLists n k) (found : Option (Fin n)) : Prop where
  good : Good home le e'
  shrinks : ∀ u, e'.inEdfQueue u → e.inEdfQueue u
  keeps : ∀ u, e.inEdfQueue u → valid u = true ∨ home u ≠ c → e'.inEdfQueue u
  queued : ∀ u, found = some u → e'.inEdfQueue u = true ∧ home u = c ∧ valid u = true
  least : ∀ u v, found = some u → e'.inEdfQueue v → home v = c → v = u ∨ le u v
  empty : found = none → ∀ u, home u = c → e'.inEdfQueue u = false

theorem Good.peekValid (valid : Fin n → Bool) (c : Cpu k) :
    ∃ e' found, EdfLists.peekValid valid c n e = some (e', found) ∧
      Peeked home le valid c e e' found := by
  obtain ⟨L, hs⟩ := hg
  -- The list is no longer than the fuel, and each round shortens it by its head.
  suffices ∀ (l : List (Fin n)) fuel (e : EdfLists n k) L, Shape home le e L → L c = l →
      l.length ≤ fuel → ∃ e' found, EdfLists.peekValid valid c fuel e = some (e', found) ∧
        Peeked home le valid c e e' found from this (L c) n e L hs rfl (hs.length_le c)
  intro l
  induction l with intro fuel e L hs hl hfuel
  | nil =>
    have hhead : e.head c = none := by rw [hs.lists.head_eq, hl]; rfl
    refine ⟨e, none, ?_, ⟨⟨L, hs⟩, fun _ hu => hu, fun _ hu _ => hu, nofun, nofun, ?_⟩⟩
    · unfold EdfLists.peekValid
      rw [hhead]
    · intro _ u hu
      by_contra hflag
      have hmem := hs.mem_iff.mpr ⟨(Bool.not_eq_false _).mp hflag, hu⟩
      rw [hl] at hmem
      cases hmem
  | cons t rest ih =>
    have hhead : e.head c = some t := by rw [hs.lists.head_eq, hl]; rfl
    have ht := hs.mem_iff.mp (hl ▸ mem_cons_self)
    unfold EdfLists.peekValid
    simp only [hhead]
    split_ifs with hvalid
    · refine ⟨e, some t, rfl, ⟨L, hs⟩, fun _ hu => hu, fun _ hu _ => hu, ?_, ?_, nofun⟩
      · rintro u ⟨⟩
        exact ⟨ht.1, ht.2, hvalid⟩
      rintro u v ⟨⟩ hv hcv
      have hsorted := hs.sorted c
      have hmem := hs.mem_iff.mpr ⟨hv, hcv⟩
      rw [hl] at hsorted hmem
      rcases mem_cons.mp hmem with rfl | hmem
      · exact .inl rfl
      · exact .inr (rel_of_pairwise_cons hsorted hmem)
    · cases fuel with
      | zero => cases hfuel
      | succ fuel =>
        obtain ⟨L₁, hs₁, hrest⟩ := hs.remove ht.2
        obtain ⟨e', found, heq, hp⟩ :=
          ih fuel _ L₁ hs₁ (hrest rest hl) (Nat.le_of_succ_le_succ hfuel)
        have hflag : ∀ u, u ≠ t → (e.remove c t).inEdfQueue u = e.inEdfQueue u := by
          intro u hu
          rw [remove_flag, update_of_ne hu]
        refine ⟨e', found, heq, hp.good, ?_, ?_, hp.queued, hp.least, hp.empty⟩
        · intro u hu
          have hu' := hp.shrinks u hu
          rw [remove_flag, update_apply] at hu'
          split_ifs at hu' with hut
          exact hu'
        · intro u hu hkeep
          have hut : u ≠ t := by
            rintro rfl
            exact hkeep.elim hvalid (fun hc => hc ht.2)
          exact hp.keeps u ((hflag u hut).trans hu) hkeep

theorem Good.rehome {home' : Fin n → Cpu k}
    (hsame : ∀ t, e.inEdfQueue t → home' t = home t) : Good home' le e := by
  obtain ⟨L, hs⟩ := hg
  refine ⟨L, hs.lists, hs.flag, ?_, hs.sorted⟩
  intro c t ht
  rw [hsame t ((hs.flag t).mpr ⟨c, ht⟩)]
  exact hs.place c t ht

theorem Good.reset (hflag : e.inEdfQueue t = false) :
    Good home le
      { e with
        inEdfQueue := update e.inEdfQueue t false
        links := (e.links.setNext t none).setPrev t none } := by
  obtain ⟨L, hs⟩ := hg
  have hsame : update e.inEdfQueue t false = e.inEdfQueue := by
    rw [← hflag, update_eq_self]
  refine ⟨L, ⟨?_, hs.lists.nodup, hs.lists.apart⟩, ?_, hs.place, hs.sorted⟩
  · intro c
    have hne : ∀ y ∈ L c, y ≠ t := by
      rintro y hy rfl
      exact hs.not_mem hflag c hy
    apply (hs.lists.seg c).congr
    all_goals intro y hy
    · rw [Links.setPrev_next, Links.setNext_next, if_neg (hne y hy)]
    · rw [Links.setPrev_prev, if_neg (hne y hy), Links.setNext_prev]
  · simp only [hsame]
    exact hs.flag

theorem Good.reorder {le' : Fin n → Fin n → Prop}
    (himp : ∀ t u, e.inEdfQueue t → e.inEdfQueue u → le t u → le' t u) :
    Good home le' e := by
  obtain ⟨L, hs⟩ := hg
  refine ⟨L, hs.lists, hs.flag, hs.place, ?_⟩
  intro c
  refine (hs.sorted c).imp_of_mem ?_
  intro t u ht hu
  exact himp t u ((hs.flag t).mpr ⟨c, ht⟩) ((hs.flag u).mpr ⟨c, hu⟩)

end EdfLists

end Nexios.Sched
