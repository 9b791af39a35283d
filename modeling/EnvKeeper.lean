import EnvKeeper.Disk.Arrange
import EnvKeeper.Main
import EnvKeeper.Proofs.Calls.AppendOnly
import EnvKeeper.Proofs.Command.Agree
import EnvKeeper.Proofs.Command.Printed
import EnvKeeper.Proofs.Declarations.Warnings
import EnvKeeper.Proofs.Declarations.Written
import EnvKeeper.Proofs.Glob.Wildcard
import EnvKeeper.Proofs.Reference.Bare
import EnvKeeper.Proofs.Report
import EnvKeeper.Proofs.Scan.Excluded
import EnvKeeper.Proofs.Scan.Undecodable
import EnvKeeper.Proofs.Store.Lines
import EnvKeeper.Proofs.Store.Series
import EnvKeeper.Proofs.Sync.Converge
import EnvKeeper.Proofs.Sync.Created
import EnvKeeper.Proofs.Sync.Failing
