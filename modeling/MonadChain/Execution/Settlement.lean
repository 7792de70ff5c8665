import MonadChain.Execution.Validation
import MonadChain.Lib.Fallible

/-!
ethereum/execute_transaction.cpp: what a transaction pays. `irrevocable_change` takes the whole
gas limit from the sender, and `execute_final` gives back what was not used and awards the rest.
In between runs the message: it moves balances, and what it burns is counted.
-/

namespace MonadChain.Execution

open Ledger

open Rlp (Transaction TransactionType)

variable {gasUsed : Nat}

section

variable (traits : Traits) (tx : Transaction)

def blobFeeOf (header : FeeHeader) : Nat :=
  if traits.evmRev.atLeast .cancun && tx.type = .eip4844 then calcBlobFee tx header.blobBaseFee
  else 0

def irrevocableChange (incarnation : Incarnation) (tx : Transaction)
    (sender : Address) (header : FeeHeader) (ledger : Ledger) : Except String Ledger := do
  let ledger :=
    if tx.recipient.isSome then
      ledger.setNonce incarnation sender (u64 (ledger.getNonce sender + 1))
    else ledger
  let price ← gasPrice traits tx header.baseFee
  let upfrontCost := u256 (tx.gasLimit.val * price)
  ledger.subtractFromBalance incarnation sender (u256 (upfrontCost + blobFeeOf traits tx header))

/-- The gas of the message: a difference in 64 bits, read as a signed number. -/
def messageGas : Int :=
  (u64 (tx.gasLimit.val + 2 ^ 64 - intrinsicGas traits tx) : Int).bmod (2 ^ 64)

structure MessageResult where
  success : Bool
  gasLeft : Int
  gasRefund : Int
  ledger : Ledger
  destructed : List Address := []
  touched : List Address := []

structure Receipt where
  status : Nat
  gasUsed : Nat
  type : TransactionType

def priorityFeeDistAddress : Address := 0xfee5fee5fee5fee5fee5fee5fee5fee5fee5fee5

/-- `collect_priority_fee` where MIP-11 is active. -/
def awardRecipient (mip11 : Bool) (header : FeeHeader) : Address :=
  if mip11 then priorityFeeDistAddress else header.beneficiary

/-- The floor of EIP-7623 takes back what was refunded of it. -/
def chargeFloor (incarnation : Incarnation) (tx : Transaction) (sender : Address)
    (gasCost gasUsed : Nat) (ledger : Ledger) : Except String (Nat × Ledger) :=
  let floorGas := floorDataGas traits tx
  if traits.evmRev.atLeast .prague && gasUsed < floorGas then
    (ledger.subtractFromBalance incarnation sender (u256 (gasCost * (floorGas - gasUsed)))).map
      fun ledger => (floorGas, ledger)
  else .ok (gasUsed, ledger)

/-- The part of `execute_final` that changes balances; the gas that was used comes with it. -/
def settle (mip11 : Bool) (incarnation : Incarnation) (tx : Transaction)
    (sender : Address) (header : FeeHeader) (result : MessageResult) :
    Except String (Nat × Ledger) :=
  if result.gasLeft < 0 then .error "result.gas_left >= 0"
  else if result.gasRefund < 0 then .error "result.gas_refund >= 0"
  else if tx.gasLimit.val < result.gasLeft.toNat then .error "tx_.gas_limit >= result.gas_left"
  else do
    let gasRefund := computeGasRefund traits tx result.gasLeft.toNat result.gasRefund.toNat
    let gasCost ← gasPrice traits tx header.baseFee
    let ledger ← result.ledger.addToBalance incarnation sender (u256 (gasCost * gasRefund))
    let (gasUsed, ledger) ← chargeFloor traits incarnation tx sender gasCost
      (u64 (tx.gasLimit.val + 2 ^ 64 - gasRefund)) ledger
    let reward ← calculateTxnAward traits tx header.baseFee gasUsed
    let ledger ← ledger.addToBalance incarnation (awardRecipient mip11 header) reward
    pure (gasUsed, ledger)

/-- `execute_final`. The accounts that were credited or debited are touched as well. -/
def executeFinal (mip11 : Bool) (incarnation : Incarnation) (tx : Transaction)
    (sender : Address) (header : FeeHeader) (result : MessageResult) :
    Except String (Receipt × Ledger) := do
  let (gasUsed, ledger) ← settle traits mip11 incarnation tx sender header result
  let ledger := ledger.destructSuicides (traits.evmRev.atLeast .cancun) incarnation
    result.destructed
  let ledger := ledger.destructTouchedDead
    (result.touched ++ [sender, awardRecipient mip11 header])
  pure (⟨if result.success then 1 else 0, gasUsed, tx.type⟩, ledger)

end

section Upfront

variable {traits : Traits} {tx : Transaction} {header : FeeHeader} {sender : Address}
  {ledger : Ledger} {codeOf : Hash → Code} {authorities : List (Option Address)}

theorem blobFee_le (valid : StaticallyValid traits tx header)
    (offered : getTotalBlobGas tx * tx.maxFeePerBlobGas.val < 2 ^ 256)
    (blobs : tx.type = .eip4844) :
    header.blobBaseFee * getTotalBlobGas tx < 2 ^ 256 ∧
      blobFeeOf traits tx header ≤ getTotalBlobGas tx * tx.maxFeePerBlobGas.val := by
  have bound : header.blobBaseFee * getTotalBlobGas tx ≤
      getTotalBlobGas tx * tx.maxFeePerBlobGas.val := by
    rw [Nat.mul_comm]
    exact Nat.mul_le_mul_left _ (valid.blobFee blobs)
  refine ⟨Nat.lt_of_le_of_lt bound offered, ?_⟩
  unfold blobFeeOf
  split
  · exact Nat.le_trans (Nat.mod_le _ _) bound
  · exact Nat.zero_le _

theorem blobFee_zero (other : tx.type ≠ .eip4844) : blobFeeOf traits tx header = 0 := by
  unfold blobFeeOf
  rw [if_neg (by simp [other])]

theorem maxCost_ok {cost : Nat} (found : maxCost tx = .ok cost) :
    cost < 2 ^ 256 ∧
      (tx.type ≠ .eip4844 → cost = tx.value.val + tx.gasLimit.val * tx.maxFeePerGas.val) ∧
      (tx.type = .eip4844 → getTotalBlobGas tx * tx.maxFeePerBlobGas.val < 2 ^ 256 ∧
        cost = tx.value.val + tx.gasLimit.val * tx.maxFeePerGas.val +
          getTotalBlobGas tx * tx.maxFeePerBlobGas.val) := by
  obtain ⟨gasFee, gas, found⟩ := bind_ok found
  obtain ⟨baseCost, base, found⟩ := bind_ok found
  obtain ⟨rfl, _⟩ := checked_mul_ok gas
  obtain ⟨rfl, baseFits⟩ := checked_add_ok base
  split at found
  · rename_i blobs
    obtain ⟨blobCost, blob, found⟩ := bind_ok found
    obtain ⟨rfl, blobFits⟩ := checked_mul_ok blob
    obtain ⟨rfl, fits⟩ := checked_add_ok found
    exact ⟨fits, fun other => absurd blobs other, fun _ => ⟨blobFits, rfl⟩⟩
  · rename_i other
    cases found
    exact ⟨baseFits, fun _ => rfl, fun blobs => absurd blobs other⟩

theorem upfront_covered (static : StaticallyValid traits tx header)
    (valid : validateTransaction traits codeOf tx sender ledger header authorities = .ok (.ok ()))
    {price burnt award : Nat} (prices : Prices traits tx header.baseFee price burnt award) :
    tx.gasLimit.val * price + blobFeeOf traits tx header ≤ ledger.getBalance sender ∧
      tx.gasLimit.val * price + blobFeeOf traits tx header < 2 ^ 256 ∧
      (tx.type = .eip4844 → header.blobBaseFee * getTotalBlobGas tx < 2 ^ 256) := by
  have gasFee : tx.gasLimit.val * price ≤ tx.gasLimit.val * tx.maxFeePerGas.val :=
    Nat.mul_le_mul_left _ prices.covered
  unfold validateTransaction at valid
  dsimp only at valid
  split at valid
  · -- Monad from FOUR on checks the fee itself, and has no blobs.
    rename_i four
    have noBlobs : tx.type ≠ .eip4844 := by
      cases traits with
      | evm revision => cases four
      | monad revision =>
        obtain active | other := static.type
        · cases active
        · exact other
    rw [blobFee_zero noBlobs]
    have fits := Nat.lt_of_le_of_lt gasFee static.maxCost
    refine ⟨?_, fits, fun blobs => absurd blobs noBlobs⟩
    have checked : validateFee traits tx sender ledger header authorities = .ok (.ok ()) := by
      split at valid
      · exact valid
      · exact valid
      · cases valid
    unfold validateFee at checked
    rw [prices.priced] at checked
    simp only [Except.map] at checked
    split at checked
    · cases Except.ok.inj checked
    · rename_i enough
      rw [u256_of_lt fits] at enough
      omega
  · have passed := Except.ok.inj valid
    unfold validateEthereumTransaction at passed
    split at passed
    · cases passed
    · rename_i cost found
      have covered : cost ≤ ledger.getBalance sender := by
        unfold getBalance
        cases present : ledger.account sender with
        | none =>
          rw [present] at passed
          dsimp only at passed
          split at passed
          · cases passed
          · split at passed
            · cases passed
            · rename_i zero
              simpa using zero
        | some account =>
          rw [present] at passed
          obtain ⟨_, passed⟩ := require_bind passed
          obtain ⟨_, passed⟩ := require_bind passed
          exact of_decide_eq_true (require_ok passed)
      obtain ⟨fits, plain, withBlobs⟩ := maxCost_ok found
      by_cases blobs : tx.type = .eip4844
      · obtain ⟨offered, costs⟩ := withBlobs blobs
        obtain ⟨exact_, fee⟩ := blobFee_le static offered blobs
        exact ⟨by omega, by omega, fun _ => exact_⟩
      · have costs := plain blobs
        rw [blobFee_zero blobs]
        exact ⟨by omega, by omega, fun there => absurd there blobs⟩

theorem irrevocableChange_ok (incarnation : Incarnation) {price burnt award upfront : Nat}
    (prices : Prices traits tx header.baseFee price burnt award)
    (parts : tx.gasLimit.val * price + blobFeeOf traits tx header = upfront)
    (covered : upfront ≤ ledger.getBalance sender) (fits : upfront < 2 ^ 256) :
    ∃ charged, irrevocableChange traits incarnation tx sender header ledger = .ok charged ∧
      charged.total + upfront = ledger.total ∧
      charged.getBalance sender + upfront = ledger.getBalance sender := by
  have nonces : ∃ counted : Ledger, counted.total = ledger.total ∧
      counted.getBalance sender = ledger.getBalance sender ∧
      irrevocableChange traits incarnation tx sender header ledger =
        counted.subtractFromBalance incarnation sender upfront := by
    unfold irrevocableChange
    rw [prices.priced]
    simp only [bind, Except.bind, u256_of_lt (show tx.gasLimit.val * price < 2 ^ 256 by omega),
      parts, u256_of_lt fits]
    split
    · exact ⟨_, setNonce_total _, setNonce_balance _ _, rfl⟩
    · exact ⟨_, rfl, rfl, rfl⟩
  obtain ⟨counted, total, balance, same⟩ := nonces
  obtain ⟨charged, ran, left, debited⟩ := subtractFromBalance_ok incarnation
    (balance.symm ▸ covered)
  refine ⟨charged, same.trans ran, left.trans total, ?_⟩
  rw [debited, if_pos rfl, balance]
  omega

end Upfront

section Refund

variable {traits : Traits} {tx : Transaction}

theorem difference_u64 {limit part : Nat} (bound : part ≤ limit) (fits : limit < 2 ^ 64) :
    u64 (limit + 2 ^ 64 - part) = limit - part := by
  unfold u64
  omega

theorem messageGas_le (intrinsic : intrinsicGas traits tx ≤ tx.gasLimit.val) :
    messageGas traits tx ≤ tx.gasLimit.val := by
  have limit := gasLimit_lt tx
  unfold messageGas
  rw [difference_u64 intrinsic limit, Int.bmod_def]
  split <;> omega

theorem computeGasRefund_le {gasLeft refund : Nat} (bound : gasLeft ≤ tx.gasLimit.val) :
    computeGasRefund traits tx gasLeft refund ≤ tx.gasLimit.val := by
  have limit := gasLimit_lt tx
  unfold computeGasRefund
  split
  · exact Nat.zero_le _
  · unfold gStar
    rw [difference_u64 bound limit]
    have allowance : (tx.gasLimit.val - gasLeft) /
        (if traits.evmRev.atLeast .london then 5 else 2) ≤ tx.gasLimit.val - gasLeft :=
      Nat.div_le_self _ _
    rw [u64_of_lt (by omega)]
    omega

end Refund

section Settle

variable {traits : Traits} {tx : Transaction} {incarnation : Incarnation} {sender : Address}

def chargedGas (traits : Traits) (tx : Transaction) (gasUsed : Nat) : Nat :=
  if traits.evmRev.atLeast .prague then max gasUsed (floorDataGas traits tx) else gasUsed

theorem chargedGas_bounds (used : gasUsed ≤ tx.gasLimit.val)
    (floor : traits.evmRev.atLeast .prague = true → floorDataGas traits tx ≤ tx.gasLimit.val) :
    gasUsed ≤ chargedGas traits tx gasUsed ∧ chargedGas traits tx gasUsed ≤ tx.gasLimit.val ∧
      (traits.evmRev.atLeast .prague = true →
        floorDataGas traits tx ≤ chargedGas traits tx gasUsed) := by
  unfold chargedGas
  split
  · rename_i prague
    have := floor prague
    exact ⟨Nat.le_max_left _ _, Nat.max_le.mpr ⟨used, this⟩, fun _ => Nat.le_max_right _ _⟩
  · rename_i before
    exact ⟨Nat.le_refl _, used, fun prague => absurd prague before⟩

theorem chargeFloor_ok (incarnation : Incarnation) {ledger : Ledger} {price used : Nat}
    (charged : used = chargedGas traits tx gasUsed)
    (covered : price * (used - gasUsed) ≤ ledger.getBalance sender)
    (fits : price * (used - gasUsed) < 2 ^ 256) :
    ∃ after, chargeFloor traits incarnation tx sender price gasUsed ledger = .ok (used, after) ∧
      after.total + price * (used - gasUsed) = ledger.total ∧
      ∀ other, after.getBalance other = ledger.getBalance other -
        if other = sender then price * (used - gasUsed) else 0 := by
  unfold chargeFloor
  by_cases low : (traits.evmRev.atLeast .prague && decide (gasUsed < floorDataGas traits tx)) = true
  · rw [if_pos low]
    have parts := (Bool.and_eq_true _ _).mp low
    have less := of_decide_eq_true parts.2
    rw [chargedGas, if_pos parts.1, Nat.max_eq_right (Nat.le_of_lt less)] at charged
    rw [charged] at covered fits ⊢
    rw [u256_of_lt fits]
    obtain ⟨after, ran, rest⟩ := subtractFromBalance_ok incarnation covered
    refine ⟨after, ?_, rest⟩
    rw [ran]
    rfl
  · rw [if_neg low]
    have same : used = gasUsed := by
      rw [charged, chargedGas]
      split
      · rename_i prague
        rw [prague, Bool.true_and, decide_eq_true_iff] at low
        exact Nat.max_eq_left (Nat.not_lt.mp low)
      · rfl
    rw [same, Nat.sub_self, Nat.mul_zero]
    exact ⟨ledger, rfl, rfl, fun other => by rw [ite_self, Nat.sub_zero]⟩

structure NoOverflow (traits : Traits) (tx : Transaction) (header : FeeHeader)
    (price award gasRefund gasUsed : Nat) : Prop where
  priceFits : price < 2 ^ 256
  blobsFit : tx.type = .eip4844 → header.blobBaseFee * getTotalBlobGas tx < 2 ^ 256
  upfrontFits : tx.gasLimit.val * price + blobFeeOf traits tx header < 2 ^ 256
  refundFits : price * gasRefund < 2 ^ 256
  floorFits : price * (gasUsed - (tx.gasLimit.val - gasRefund)) < 2 ^ 256
  awardFits : gasUsed * award < 2 ^ 256

theorem noOverflow_of {header : FeeHeader} {price burnt award gasRefund : Nat}
    (prices : Prices traits tx header.baseFee price burnt award)
    (refund : gasRefund ≤ tx.gasLimit.val) (used : gasUsed ≤ tx.gasLimit.val)
    (blobs : tx.type = .eip4844 → header.blobBaseFee * getTotalBlobGas tx < 2 ^ 256)
    (fits : tx.gasLimit.val * price + blobFeeOf traits tx header < 2 ^ 256) :
    NoOverflow traits tx header price award gasRefund gasUsed := by
  have limit : tx.gasLimit.val * price < 2 ^ 256 := Nat.lt_of_le_of_lt (Nat.le_add_right _ _) fits
  -- Every product is at most the price of the gas limit.
  have product : ∀ gas, gas ≤ tx.gasLimit.val → price * gas < 2 ^ 256 := by
    intro gas bound
    rw [Nat.mul_comm]
    exact Nat.lt_of_le_of_lt (Nat.mul_le_mul_right _ bound) limit
  refine ⟨Nat.lt_of_le_of_lt prices.covered (maxFeePerGas_lt tx), blobs, fits,
    product _ refund, product _ (by omega), ?_⟩
  have awarded : award ≤ price := by
    rw [prices.parts]
    exact Nat.le_add_left _ _
  rw [Nat.mul_comm]
  exact Nat.lt_of_le_of_lt (Nat.mul_le_mul_right _ awarded) (product _ used)

/-- What the message may do: the gas is counted down, and balances are moved or burnt. -/
structure MessageResult.Of (traits : Traits) (tx : Transaction) (charged : Ledger) (burned : Nat)
    (result : MessageResult) : Prop where
  gasLeft : 0 ≤ result.gasLeft ∧ result.gasLeft ≤ messageGas traits tx
  gasRefund : 0 ≤ result.gasRefund
  balances : result.ledger.total + burned = charged.total

variable {header : FeeHeader} {result : MessageResult} {price burnt award : Nat}

theorem settle_ok (mip11 : Bool) (prices : Prices traits tx header.baseFee price burnt award)
    (floor : traits.evmRev.atLeast .prague = true → floorDataGas traits tx ≤ tx.gasLimit.val)
    (gasLeft : 0 ≤ result.gasLeft ∧ result.gasLeft ≤ tx.gasLimit.val)
    (gasRefund : 0 ≤ result.gasRefund)
    (supply : result.ledger.total + tx.gasLimit.val * price < 2 ^ 256) :
    ∃ refund used settled,
      refund = computeGasRefund traits tx result.gasLeft.toNat result.gasRefund.toNat ∧
      refund ≤ tx.gasLimit.val ∧ used ≤ tx.gasLimit.val ∧
      (traits.evmRev.atLeast .prague = true → floorDataGas traits tx ≤ used) ∧
      settle traits mip11 incarnation tx sender header result = .ok (used, settled) ∧
      settled.total = result.ledger.total + price * (tx.gasLimit.val - used) + award * used ∧
      ∀ other, settled.getBalance other = result.ledger.getBalance other +
        (if other = sender then price * (tx.gasLimit.val - used) else 0) +
        (if other = awardRecipient mip11 header then award * used else 0) := by
  have limit := gasLimit_lt tx
  have left : result.gasLeft.toNat ≤ tx.gasLimit.val := by omega
  have bound : computeGasRefund traits tx result.gasLeft.toNat result.gasRefund.toNat ≤
    tx.gasLimit.val := computeGasRefund_le left
  generalize found : computeGasRefund traits tx result.gasLeft.toNat result.gasRefund.toNat =
    refund at bound
  have gases := @chargedGas_bounds (tx.gasLimit.val - refund) traits tx (Nat.sub_le _ _) floor
  generalize charged : chargedGas traits tx (tx.gasLimit.val - refund) = used at gases
  obtain ⟨low, high, floored⟩ := gases
  -- Three products make up the price of the gas limit and of the refund.
  have whole : tx.gasLimit.val * price = price * (tx.gasLimit.val - used) + price * used := by
    rw [← Nat.mul_add, Nat.sub_add_cancel high, Nat.mul_comm]
  have back : price * refund =
      price * (tx.gasLimit.val - used) + price * (used - (tx.gasLimit.val - refund)) := by
    rw [← Nat.mul_add]
    congr 1
    omega
  have part : award * used ≤ price * used :=
    Nat.mul_le_mul_right _ (by rw [prices.parts]; exact Nat.le_add_left _ _)
  have refunds : price * refund ≤ tx.gasLimit.val * price := by
    rw [Nat.mul_comm]
    exact Nat.mul_le_mul_right _ bound
  have held := result.ledger.getBalance_le_total sender
  obtain ⟨credited, creditRan, creditTotal, creditBalances⟩ :=
    addToBalance_ok incarnation
      (show result.ledger.getBalance sender + price * refund < 2 ^ 256 by omega)
  have creditedSender := creditBalances sender
  rw [if_pos rfl] at creditedSender
  obtain ⟨middle, floorRan, floorTotal, floorBalances⟩ :=
    @chargeFloor_ok _ _ _ sender incarnation credited price _ charged.symm (by omega) (by omega)
  have recipient := middle.getBalance_le_total (awardRecipient mip11 header)
  obtain ⟨settled, awardRan, awardTotal, awardBalances⟩ :=
    addToBalance_ok incarnation
      (show middle.getBalance (awardRecipient mip11 header) + award * used < 2 ^ 256 by omega)
  refine ⟨refund, used, settled, rfl, bound, high, floored, ?_, by omega, ?_⟩
  · unfold settle
    rw [if_neg (by omega), if_neg (by omega), if_neg (by omega), found, prices.priced]
    simp only [bind, Except.bind, pure, Except.pure, u256_of_lt
      (show price * refund < 2 ^ 256 by omega), creditRan, difference_u64 bound limit, floorRan,
      prices.awarded]
    rw [Nat.mul_comm _ award, u256_of_lt (by omega), awardRan]
  · intro other
    rw [awardBalances, floorBalances, creditBalances]
    by_cases here : other = sender
    · simp only [if_pos here]
      omega
    · simp only [if_neg here]
      omega

end Settle

/-- A settled transaction conserves value. The upfront cost and the floor are paid from what the
sender has, nothing overflows, and what is missing of the balances in the end is the base fee of
the gas that was used, the fee of the blobs, and what self-destruction has burnt. -/
theorem settlement_conserves (traits : Traits) (mip11 : Bool) (codeOf : Hash → Code)
    (incarnation : Incarnation) (tx : Transaction) (sender : Address) (header : FeeHeader)
    (chainId : Rlp.Unsigned 32) (authorities : List (Option Address)) (ledger : Ledger)
    (supply : ledger.total < 2 ^ 256)
    (static : staticValidateTransaction traits tx header chainId = .ok ())
    (valid : validateTransaction traits codeOf tx sender ledger header authorities = .ok (.ok ())) :
    ∃ charged price burnt award,
      irrevocableChange traits incarnation tx sender header ledger = .ok charged ∧
      gasPrice traits tx header.baseFee = .ok price ∧ price = burnt + award ∧
      burnt = (if traits.evmRev.atLeast .london then header.baseFee else 0) ∧
      charged.getBalance sender + (tx.gasLimit.val * price + blobFeeOf traits tx header) =
        ledger.getBalance sender ∧
      ∀ (result : MessageResult) (burned : Nat), result.Of traits tx charged burned →
        ∃ gasRefund receipt settled after,
          gasRefund = computeGasRefund traits tx result.gasLeft.toNat result.gasRefund.toNat ∧
          settle traits mip11 incarnation tx sender header result =
            .ok (receipt.gasUsed, settled) ∧
          executeFinal traits mip11 incarnation tx sender header result = .ok (receipt, after) ∧
          NoOverflow traits tx header price award gasRefund receipt.gasUsed ∧
          (traits.evmRev.atLeast .prague = true → floorDataGas traits tx ≤ receipt.gasUsed) ∧
          receipt.gasUsed ≤ tx.gasLimit.val ∧
          (∀ address, settled.getBalance address = result.ledger.getBalance address +
            (if address = sender then price * (tx.gasLimit.val - receipt.gasUsed) else 0) +
            (if address = awardRecipient mip11 header then award * receipt.gasUsed else 0)) ∧
          after.total + burnt * receipt.gasUsed + blobFeeOf traits tx header +
            (burned + settled.destructBurns (traits.evmRev.atLeast .cancun) incarnation
              result.destructed) = ledger.total := by
  have checks := staticallyValid static
  obtain ⟨price, burnt, award, prices⟩ :
      ∃ price burnt award, Prices traits tx header.baseFee price burnt award :=
    prices_of_covered checks.baseFee
  obtain ⟨covered, fits, blobs⟩ := upfront_covered checks valid prices
  obtain ⟨charged, changed, total, balance⟩ :=
    irrevocableChange_ok incarnation prices rfl covered fits
  refine ⟨charged, price, burnt, award, changed, prices.priced, prices.parts, prices.base, balance,
    ?_⟩
  intro result burned message
  have gasLeft : 0 ≤ result.gasLeft ∧ result.gasLeft ≤ tx.gasLimit.val :=
    ⟨message.gasLeft.1, Int.le_trans message.gasLeft.2 (messageGas_le checks.intrinsic)⟩
  have moved := message.balances
  obtain ⟨refund, gasUsed, settled, computed, bound, high, floor, ran, settledTotal, balances⟩ :=
    settle_ok mip11 prices checks.floor gasLeft message.gasRefund (by omega)
  have final : executeFinal traits mip11 incarnation tx sender header result =
      .ok (⟨if result.success then 1 else 0, gasUsed, tx.type⟩,
        (settled.destructSuicides (traits.evmRev.atLeast .cancun) incarnation
          result.destructed).destructTouchedDead
            (result.touched ++ [sender, awardRecipient mip11 header])) := by
    unfold executeFinal
    rw [ran]
    rfl
  refine ⟨refund, _, settled, _, computed, ran, final, ?_, floor, high, balances, ?_⟩
  · exact noOverflow_of prices bound high blobs fits
  · have swept := settled.destructSuicides_total (traits.evmRev.atLeast .cancun) incarnation
      result.destructed
    have whole : tx.gasLimit.val * price =
        price * (tx.gasLimit.val - gasUsed) + price * gasUsed := by
      rw [← Nat.mul_add, Nat.sub_add_cancel high, Nat.mul_comm]
    have parts : price * gasUsed = burnt * gasUsed + award * gasUsed := by
      rw [prices.parts, Nat.add_mul]
    rw [destructTouchedDead_total]
    dsimp only
    omega

def sampleTx : Transaction where
  sc := { signature := { r := 1, s := 1 } }
  maxFeePerGas := 3
  gasLimit := 30000
  recipient := some ⟨List.replicate 20 0, List.length_replicate⟩

def sampleHeader : FeeHeader where
  baseFeePerGas := some 2
  beneficiary := 2

def samplePayers (beneficiary : Nat) : Ledger :=
  ⟨(AList.singleton 1 { balance := 100000 }).insert 2 { balance := beneficiary }⟩

def sampleResult (gasLeft : Int) (charged : Ledger) : MessageResult where
  success := true
  gasLeft := gasLeft
  gasRefund := 0
  ledger := charged

theorem sampleTx_static :
    staticValidateTransaction (.evm .prague) sampleTx sampleHeader 1 = .ok () := by
  decide +kernel

theorem sampleMessage (gasLeft : Int) (charged : Ledger)
    (left : 0 ≤ gasLeft ∧ gasLeft ≤ messageGas (.evm .prague) sampleTx) :
    (sampleResult gasLeft charged).Of (.evm .prague) sampleTx charged 0 :=
  ⟨left, Int.le_refl 0, rfl⟩

def awardFailure : Option String :=
  match irrevocableChange (.evm .prague) ⟨1, 1⟩ sampleTx 1 sampleHeader
    (samplePayers (2 ^ 256 - 1)) with
  | .ok charged => errorOf (executeFinal (.evm .prague) false ⟨1, 1⟩ sampleTx 1 sampleHeader
      (sampleResult 0 charged))
  | .error _ => none

theorem award_overflows : ∃ charged,
    staticValidateTransaction (.evm .prague) sampleTx sampleHeader 1 = .ok () ∧
    validateTransaction (.evm .prague) (fun _ => []) sampleTx 1 (samplePayers (2 ^ 256 - 1))
      sampleHeader [] = .ok (.ok ()) ∧
    irrevocableChange (.evm .prague) ⟨1, 1⟩ sampleTx 1 sampleHeader (samplePayers (2 ^ 256 - 1)) =
      .ok charged ∧
    (sampleResult 0 charged).Of (.evm .prague) sampleTx charged 0 ∧
    executeFinal (.evm .prague) false ⟨1, 1⟩ sampleTx 1 sampleHeader (sampleResult 0 charged) =
      .error "balance overflow" := by
  have checked : validateTransaction (.evm .prague) (fun _ => []) sampleTx 1
      (samplePayers (2 ^ 256 - 1)) sampleHeader [] = .ok (.ok ()) := by
    decide +kernel
  have failure : awardFailure = some "balance overflow" := by decide +kernel
  unfold awardFailure at failure
  split at failure
  · rename_i charged changed
    exact ⟨charged, sampleTx_static, checked, changed, sampleMessage 0 charged (by decide +kernel),
      eq_error_of failure⟩
  · cases failure

theorem settlement_conserves_sample : ∃ (charged after : Ledger) (receipt : Receipt),
    irrevocableChange (.evm .prague) ⟨1, 1⟩ sampleTx 1 sampleHeader (samplePayers 5) =
      .ok charged ∧
    executeFinal (.evm .prague) false ⟨1, 1⟩ sampleTx 1 sampleHeader (sampleResult 9000 charged) =
      .ok (receipt, after) ∧
    receipt.gasUsed ≤ 30000 ∧ after.total + 2 * receipt.gasUsed = 100005 := by
  have checked : validateTransaction (.evm .prague) (fun _ => []) sampleTx 1 (samplePayers 5)
      sampleHeader [] = .ok (.ok ()) := by
    decide +kernel
  obtain ⟨charged, price, burnt, award, changed, _, _, base, _, settles⟩ :=
    settlement_conserves (.evm .prague) false (fun _ => []) ⟨1, 1⟩ sampleTx 1 sampleHeader 1 []
      (samplePayers 5) (by decide +kernel) sampleTx_static checked
  obtain ⟨_, receipt, settled, after, _, _, final, _, _, limit, _, conserved⟩ :=
    settles _ 0 (sampleMessage 9000 charged (by decide +kernel))
  have burntFee : burnt = 2 := base.trans (by decide +kernel)
  have noBlobs : blobFeeOf (.evm .prague) sampleTx sampleHeader = 0 := by decide +kernel
  have supply : (samplePayers 5).total = 100005 := by decide +kernel
  refine ⟨charged, after, receipt, changed, final, limit, ?_⟩
  rw [burntFee, noBlobs, supply] at conserved
  exact conserved

end MonadChain.Execution
