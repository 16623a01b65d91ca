import Cil.Proofs.Metadata.Exchange
import Cil.Proofs.Session.Task

/-!
# Identities stay unique

All that a caller can hold: the bodies of a session, instructions in hand, values that were read
from texts, and stores of definitions. Whatever happens to them, and whether or not it goes well,
the identities that there are afterwards were there before or come from the supply: every state
`Follows` the ones before it. So no two instructions ever share an identity, unless somebody copies
a whole body: `Workspace.identities_unique`.
-/

namespace Cil

/-- The machine word that represents an identity. -/
def InstrId.word (id : InstrId) : UInt64 := UInt64.ofNat id.val

/-- Identities handed out from the first one on are told apart by their words, as long as there are
fewer of them than words. -/
theorem Supply.word_injOn {s : Supply} (h : (full.issued s).card < UInt64.size) :
    ∀ x ∈ full.issued s, ∀ y ∈ full.issued s, x.word = y.word → x = y := by
  have hlt : ∀ x ∈ full.issued s, x.val < UInt64.size := by
    intro x hx
    obtain ⟨hone, hnext⟩ := mem_issued_iff.mp hx
    have hfull : full.next = 1 := rfl
    rw [card_issued] at h
    omega
  intro x hx y hy hw
  have hval : x.val = y.val := by
    rw [← UInt64.toNat_ofNat_of_lt' (hlt x hx), ← UInt64.toNat_ofNat_of_lt' (hlt y hy)]
    exact congrArg UInt64.toNat hw
  exact congrArg InstrId.mk hval

/-- All that a caller holds. -/
structure Workspace where
  session : Session
  /-- Values that were read from texts, by name. -/
  holdings : Named Holding
  /-- Stores of definitions, by name. -/
  stores : Named Store

namespace Workspace

/-- The workspace in which nothing has happened. -/
def start : Workspace := { session := .start, holdings := .empty, stores := .empty }

/-- The supply of all identities. -/
def supply (w : Workspace) : Supply := w.session.supply

/-- The workspace with another supply. -/
def withSupply (w : Workspace) (supply : Supply) : Workspace :=
  { w with session := { w.session with supply } }

/-- The store of this name, which is empty at first. -/
def store (w : Workspace) (name : String) : Store := (w.stores.get? name).getD .empty

/-- What a caller does. -/
inductive Action
  /-- Works on bodies and instructions in hand. -/
  | task (t : Session.Task)
  /-- Reads a value with code. -/
  | decode (key : String) (kind : Holding.Kind) (text : String)
  /-- Puts a body into the place of code in a value, and that code into the place of the body. -/
  | exchange (key : String) (index : Nat) (member : Member) (body : String)
  /-- Reads a store; the reader stops at the place if the text does not decode. -/
  | parse (store text : String) (place : Position)
  /-- Adds a type in hand to a store, and takes the one in hand that it takes the place of. -/
  | insert (key store replaced : String)

namespace Action

/-- Performs an action. -/
def perform : Action → Workspace → Workspace
  | .task t, w => { w with session := (t.perform.run w.session).2 }
  | .decode key kind text, w =>
    match DecodeM.runText kind.decode text w.supply with
    | (.error _, supply) => w.withSupply supply
    | (.ok h, supply) => { w.withSupply supply with holdings := w.holdings.set key h }
  | .exchange key index member body, w =>
    match w.holdings.get? key with
    | none => w
    | some h =>
      let (code, h) := h.swap index member (w.session.body body)
      { w with
        session := { w.session with bodies := w.session.bodies.set body code }
        holdings := w.holdings.set key h }
  | .parse name text place, w =>
    match Store.parse text place w.supply with
    | (.error _, supply) => w.withSupply supply
    | (.ok (_, s), supply) => { w.withSupply supply with stores := w.stores.set name s }
  | .insert key name replaced, w =>
    match w.holdings.get? key with
    | some (.type d) =>
      let (old, s) := (w.store name).insert d
      { w with
        holdings := match old with
          | none => w.holdings.erase key
          | some old => (w.holdings.erase key).set replaced (.type old)
        stores := w.stores.set name s }
    | _ => w

/-- The action copies a whole body. -/
def copies : Action → Bool
  | .task t => t.copies
  | _ => false

end Action

/-- The workspace after some actions. -/
def run : List Action → Workspace → Workspace
  | [], w => w
  | a :: rest, w => run rest (a.perform w)

/-- The identities of all instructions that there are. -/
def ids (w : Workspace) : Multiset InstrId :=
  w.session.ids + w.holdings.total Holding.ids + w.stores.total Store.ids

/-- The identities that a later state has are those of an earlier one, or new ones from the
supply. -/
structure Follows (later earlier : Workspace) : Prop where
  next_le : earlier.supply.next ≤ later.supply.next
  ids_le : later.ids ≤ earlier.ids + earlier.supply.issued later.supply

namespace Follows

variable {u v w : Workspace}

private theorem refl (w : Workspace) : Follows w w := ⟨Nat.le_refl _, Multiset.le_add_right _ _⟩

private theorem trans (hu : Follows u v) (hv : Follows v w) : Follows u w := by
  refine ⟨Nat.le_trans hv.next_le hu.next_le, ?_⟩
  calc u.ids
    _ ≤ v.ids + v.supply.issued u.supply := hu.ids_le
    _ ≤ w.ids + w.supply.issued v.supply + v.supply.issued u.supply :=
      add_le_add_left hv.ids_le _
    _ = w.ids + w.supply.issued u.supply := by
      rw [add_assoc, Supply.issued_add hv.next_le hu.next_le]

private theorem of_still (hs : u.supply = w.supply) (h : u.ids ≤ w.ids) : Follows u w := by
  refine ⟨hs ▸ Nat.le_refl _, ?_⟩
  rw [hs, Supply.issued_self, add_zero]
  exact h

end Follows

variable {w : Workspace}

private theorem follows_decode (key : String) (kind : Holding.Kind) (text : String)
    (w : Workspace) :
    Follows ((Action.decode key kind text).perform w) w := by
  obtain ⟨hle, hids⟩ := Decode.draws_text (Holding.draws_decode kind) text w.supply
  rw [DecodeM.outcome_text] at hle hids
  rw [zero_add] at hids
  rw [Action.perform]
  rcases hr : DecodeM.runText kind.decode text w.supply with ⟨e | h, supply⟩
  · rw [hr] at hle
    exact ⟨hle, Multiset.le_add_right _ _⟩
  · rw [hr] at hle hids
    refine ⟨hle, ?_⟩
    calc w.session.ids + (w.holdings.set key h).total Holding.ids + w.stores.total Store.ids
      _ ≤ w.session.ids + (w.holdings.total Holding.ids + h.ids) + w.stores.total Store.ids := by
        gcongr
        exact Named.total_set_le Holding.ids w.holdings key h
      _ = w.ids + h.ids := by
        rw [ids]
        abel
      _ ≤ w.ids + w.supply.issued supply := add_le_add_right (hids h rfl) _

private theorem follows_parse (name text : String) (place : Position) (w : Workspace) :
    Follows ((Action.parse name text place).perform w) w := by
  obtain ⟨hle, hids⟩ := Store.draws_parse text place w.supply
  rw [Action.perform]
  rcases hr : Store.parse text place w.supply with ⟨e | ⟨events, s⟩, supply⟩
  · rw [hr] at hle
    exact ⟨hle, Multiset.le_add_right _ _⟩
  · rw [hr] at hle hids
    refine ⟨hle, ?_⟩
    calc w.session.ids + w.holdings.total Holding.ids + (w.stores.set name s).total Store.ids
      _ ≤ w.session.ids + w.holdings.total Holding.ids + (w.stores.total Store.ids + s.ids) := by
        gcongr
        exact Named.total_set_le Store.ids w.stores name s
      _ = w.ids + s.ids := by rw [ids, add_assoc _ _ s.ids]
      _ ≤ w.ids + w.supply.issued supply := add_le_add_right (hids events s rfl) _

private theorem follows_exchange (key : String) (index : Nat) (member : Member) (body : String)
    (w : Workspace) : Follows ((Action.exchange key index member body).perform w) w := by
  rw [Action.perform]
  split
  · exact .refl w
  next h hk =>
    rcases hs : h.swap index member (w.session.body body) with ⟨code, h'⟩
    have hswap : code.ids + h'.ids = (w.session.body body).ids + h.ids := by
      have hc := Holding.conserves_swap index member (w.session.body body) h
      rwa [hs] at hc
    have hbody : h'.ids + code.ids ≤ h.ids + (w.session.body body).ids := by
      rw [add_comm, hswap, add_comm]
    have hsession := Session.ids_setBody_le
      (t := { w.session with bodies := w.session.bodies.set body code }) rfl rfl hbody
    have hholdings := w.holdings.total_set Holding.ids key h'
    rw [Named.amountAt_of_get? hk] at hholdings
    refine .of_still rfl (le_of_add_le_add_right (a := h.ids) ?_)
    calc Session.ids { w.session with bodies := w.session.bodies.set body code } +
          (w.holdings.set key h').total Holding.ids + w.stores.total Store.ids + h.ids
      _ = h'.ids + Session.ids { w.session with bodies := w.session.bodies.set body code } +
          (w.holdings.total Holding.ids + w.stores.total Store.ids) := by
        rw [add_right_comm, add_assoc (Session.ids _), hholdings]
        abel
      _ ≤ h.ids + w.session.ids + (w.holdings.total Holding.ids + w.stores.total Store.ids) :=
        add_le_add_left hsession _
      _ = w.ids + h.ids := by
        rw [ids]
        abel

private theorem follows_insert (key name replaced : String) (w : Workspace) :
    Follows ((Action.insert key name replaced).perform w) w := by
  rw [Action.perform]
  split
  next d hk =>
    rcases hi : (w.store name).insert d with ⟨old, s⟩
    have hinsert : s.ids + (old.map TypeDef.ids).getD 0 = (w.store name).ids + d.ids := by
      have := Store.ids_insert d (w.store name)
      rwa [hi] at this
    have hstores := w.stores.total_set Store.ids name s
    have hstore : w.stores.amountAt Store.ids name = (w.store name).ids := by
      rw [Named.amountAt, store]
      cases w.stores.get? name <;> rfl
    rw [hstore] at hstores
    have herase := w.holdings.total_erase Holding.ids key
    rw [Named.amountAt_of_get? hk] at herase
    have hholdings : (match old with
        | none => w.holdings.erase key
        | some old => (w.holdings.erase key).set replaced (.type old)).total Holding.ids ≤
        (w.holdings.erase key).total Holding.ids + (old.map TypeDef.ids).getD 0 := by
      cases old with
      | none => exact Multiset.le_add_right _ _
      | some old => exact Named.total_set_le Holding.ids _ replaced (.type old)
    refine .of_still rfl (le_of_add_le_add_right (a := (w.store name).ids) ?_)
    calc w.session.ids + Named.total Holding.ids _ + (w.stores.set name s).total Store.ids +
          (w.store name).ids
      _ ≤ w.session.ids +
          ((w.holdings.erase key).total Holding.ids + (old.map TypeDef.ids).getD 0) +
          (w.stores.set name s).total Store.ids + (w.store name).ids := by
        gcongr
      _ = w.session.ids + (w.holdings.erase key).total Holding.ids + w.stores.total Store.ids +
          (s.ids + (old.map TypeDef.ids).getD 0) := by
        rw [add_assoc _ _ (w.store name).ids, hstores]
        abel
      _ = w.ids + (w.store name).ids := by
        rw [hinsert, ids, ← herase, Holding.ids]
        abel
  next => exact .refl w

/-- Every action but copying a body leads to a state that follows the one before. -/
theorem Action.follows {a : Action} (h : ¬ a.copies) (w : Workspace) :
    Follows (a.perform w) w := by
  cases a with
  | task t =>
    obtain ⟨hle, hids⟩ := Session.Task.carries h w.session
    rw [zero_add, zero_add] at hids
    refine ⟨hle, ?_⟩
    calc (t.perform.run w.session).2.ids + w.holdings.total Holding.ids + w.stores.total Store.ids
      _ ≤ w.session.ids + w.supply.issued (t.perform.run w.session).2.supply +
          w.holdings.total Holding.ids + w.stores.total Store.ids := by
        gcongr
        exact hids
      _ = w.ids + w.supply.issued (t.perform.run w.session).2.supply := by
        rw [ids]
        abel
  | decode key kind text => exact follows_decode key kind text w
  | exchange key index member body => exact follows_exchange key index member body w
  | parse name text place => exact follows_parse name text place w
  | insert key name replaced => exact follows_insert key name replaced w

/-- Whatever is done but copying a body leads to states that follow the ones before. -/
theorem follows_run {actions : List Action} (h : ∀ a ∈ actions, ¬ a.copies) (w : Workspace) :
    Follows (run actions w) w := by
  induction actions generalizing w with
  | nil => exact .refl w
  | cons a rest ih =>
    rw [List.forall_mem_cons] at h
    exact (ih h.2 _).trans (Action.follows h.1 w)

private theorem ids_start : start.ids = 0 := rfl

/-- While the identities handed out are fewer than there are words, no two instructions that there
are have an identity in common, and none of them has one that is handed out later. All that there
are later have the one or the other. -/
theorem identities_unique {actions more : List Action} (ha : ∀ a ∈ actions, ¬ a.copies)
    (hm : ∀ a ∈ more, ¬ a.copies)
    (hcount : (start.supply.issued (run more (run actions start)).supply).card < UInt64.size) :
    let w := run actions start
    let later := run more w
    ((w.ids + w.supply.issued later.supply).map InstrId.word).Nodup ∧
      later.ids ≤ w.ids + w.supply.issued later.supply := by
  intro w later
  have hw : Follows w start := follows_run ha start
  have hlater : Follows later w := follows_run hm w
  have hids : w.ids + w.supply.issued later.supply ≤ start.supply.issued later.supply := by
    calc w.ids + w.supply.issued later.supply
      _ ≤ start.supply.issued w.supply + w.supply.issued later.supply := by
        have := hw.ids_le
        rw [ids_start, zero_add] at this
        exact add_le_add_left this _
      _ = start.supply.issued later.supply := Supply.issued_add hw.next_le hlater.next_le
  have hword : ((start.supply.issued later.supply).map InstrId.word).Nodup :=
    (Supply.nodup_issued _ _).map_on (Supply.word_injOn hcount)
  exact ⟨Multiset.nodup_of_le (Multiset.map_le_map hids) hword, hlater.ids_le⟩

/-- A body is emptied into a type, an array form and a batch fail, an instruction is in hand. -/
def busy : List Action := [
  .task (.op (.emit "body" .nop)),
  .decode "type" .type ("\x7b\"full_name\":\"A\",\"methods\":[\x7b\"name\":\"M\"," ++
    "\"body\":\x7b\"instructions\":[[0,\"ret\"]]\x7d\x7d]\x7d"),
  .decode "broken" .body "[[[0,\"dup\"],[7]]]",
  .exchange "type" 0 (.method 0) "body",
  .task (.weave "body" .before ⟨9⟩ [.made 0 .dup] none),
  .task (.op (.remove "body" ⟨2⟩ "hand"))]

/-- The type goes into a store, and the instruction into a body next to its copy. -/
def busier : List Action := [
  .insert "type" "store" "replaced",
  .task (.op (.hold "body" (.copied "hand") "copy")),
  .task (.collect "body" [.taken "hand", .taken "copy", .taken "copy", .made 0 .pop])]

/-- Five identities are handed out first, two of which are left, and two more after that. -/
theorem identities_unique_busy :
    (∀ a ∈ busy, ¬ a.copies) ∧ (∀ a ∈ busier, ¬ a.copies) ∧
    (start.supply.issued (run busier (run busy start)).supply).card = 7 ∧
    (run busy start).ids = {⟨1⟩, ⟨2⟩} ∧
    (run busier (run busy start)).ids = {⟨1⟩, ⟨2⟩, ⟨6⟩, ⟨7⟩} ∧
    (((run busy start).ids + (run busy start).supply.issued
      (run busier (run busy start)).supply).map InstrId.word).Nodup ∧
    (run busier (run busy start)).ids ≤ (run busy start).ids +
      (run busy start).supply.issued (run busier (run busy start)).supply := by
  have ha : ∀ a ∈ busy, ¬ a.copies := by decide
  have hm : ∀ a ∈ busier, ¬ a.copies := by decide
  have hcard : (start.supply.issued (run busier (run busy start)).supply).card = 7 := by
    rw [Supply.card_issued]
    decide +kernel
  have hcount : (start.supply.issued (run busier (run busy start)).supply).card <
      UInt64.size := by
    rw [hcard]
    decide
  refine ⟨ha, hm, hcard, by decide +kernel, by decide +kernel, ?_⟩
  exact identities_unique ha hm hcount

end Workspace

end Cil
