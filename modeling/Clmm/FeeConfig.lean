import Clmm.Fee
import Clmm.Key
import Clmm.Outcome

/-!
# Clmm.FeeConfig

**Fee tiers.** A fee config fixes the tick spacing and the fee rates of the pools created under it,
and says who may collect the protocol's and the fund's shares. Only the administrator creates one.
-/

namespace Clmm

/-- The greatest tick spacing of a config. -/
def maxTickSpacing : Nat := 16384

/-- A fee tier shared by pools. Rates are in millionths. -/
structure FeeConfig where
  /-- The bump of the config's address. -/
  bump : Nat
  /-- The number of the config, part of its address. -/
  index : Nat
  /-- Collects the protocol's share. -/
  owner : Key
  /-- The protocol's share of a trade fee. -/
  protocolRate : Nat
  /-- The trade fee on what is paid in. -/
  tradeRate : Nat
  spacing : Nat
  /-- The fund's share of a trade fee. -/
  fundRate : Nat
  /-- Collects the fund's share. -/
  fundOwner : Key
  /-- Room for later use. -/
  reserved : Vector Nat 3
deriving DecidableEq

namespace FeeConfig

/-- A config before it is set up: all zero. -/
def zeroed : FeeConfig :=
  { bump := 0, index := 0, owner := 0, protocolRate := 0, tradeRate := 0, spacing := 0, fundRate := 0,
    fundOwner := 0, reserved := Vector.replicate 3 0 }

/-- The parameters a new config is given. -/
structure Params where
  spacing : Nat
  tradeRate : Nat
  protocolRate : Nat
  fundRate : Nat
deriving DecidableEq, Repr

/-- Parameters are valid when the spacing is in range, the rates make up at most the whole, and the
trade fee is less than the whole. -/
def Params.isValid (p : Params) : Bool :=
  0 < p.spacing && p.spacing ≤ maxTickSpacing &&
    p.tradeRate + p.protocolRate + p.fundRate ≤ feeDenominator && p.tradeRate < feeDenominator

/-- Sets a config up. The signer has to be the administrator and becomes owner of both shares. -/
def setUp (c : FeeConfig) (signer admin : Key) (bump index : Nat) (p : Params) :
    Outcome FeeConfig := do
  require (signer = admin) .unauthorized
  require p.isValid .invalidConfig
  return { c with bump, index, owner := signer, fundOwner := signer, spacing := p.spacing,
                  tradeRate := p.tradeRate, protocolRate := p.protocolRate, fundRate := p.fundRate }

/-- Whether `k` may collect the protocol's share. -/
def isOwner (c : FeeConfig) (k : Key) : Bool := c.owner = k

/-- Whether `k` may collect the fund's share. -/
def isFundOwner (c : FeeConfig) (k : Key) : Bool := c.fundOwner = k

end FeeConfig

end Clmm
